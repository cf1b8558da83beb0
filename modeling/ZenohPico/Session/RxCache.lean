import ZenohPico.Collections.LruCache
import ZenohPico.Session.Locality

/-!
The caches of a session for what it receives (`src/session/subscription.c`,
`src/session/queryable.c`).

Which subscribers or queryables hear a message is kept under the origin and the key of the message.
The cache of the queryables is emptied whenever they change; it answers as no cache would, as long
as keys do not compare equal behind a common terminator and the cache itself is in order
(`queryables_transparent_of_settled`). That of the subscribers serves two kinds of them under the
same keys, and is not emptied when one is registered (`subscriptions_transparent_of_settled`).
-/

namespace ZenohPico.Session

open Collections List

/-- What is registered: `_z_subscription_t`, `_z_session_queryable_t` -/
structure RxEntity where
  id : UInt32
  key : List UInt8
  allowedOrigin : Locality
deriving DecidableEq, Repr

/-- `_z_subscription_cache_data_t`, `_z_queryable_cache_data_t`. The kind is not kept in them: it is
that of the lookup that made the entry. -/
structure RxEntry (Kind : Type) where
  kind : Kind
  isRemote : Bool
  ke : List UInt8
  infos : List RxEntity
deriving DecidableEq, Repr

/-! ### The comparison of entries -/

/-- `strncmp` of `n` bytes, which stops at a terminator common to both -/
def strncmp : List UInt8 → List UInt8 → ℕ → Ordering
  | _, _, 0 => .eq
  | l, r, n + 1 =>
    match compare (l.headD 0) (r.headD 0) with
    | .eq => if l.headD 0 = 0 then .eq else strncmp l.tail r.tail n
    | order => order

/-- `_z_string_compare` -/
def stringCompare (left right : List UInt8) : Ordering :=
  match strncmp left right (min left.length right.length) with
  | .eq => compare left.length right.length
  | order => order

/-- `_z_subscription_cache_data_compare`, `_z_queryable_cache_data_compare` -/
def entryCompare {Kind : Type} (first second : RxEntry Kind) : Ordering :=
  if first.isRemote ≠ second.isRemote then compare first.isRemote second.isRemote
  else stringCompare first.ke second.ke

/-- What `strncmp` sees of a text -/
def cstring (text : List UInt8) : List UInt8 := text.takeWhile (· ≠ 0)

theorem compare_zero_ne_gt (a : UInt8) : compare 0 a ≠ .gt := by
  change compareOfLessAndEq 0 a ≠ .gt
  rw [compareOfLessAndEq]
  grind

theorem cstring_cons (a : UInt8) (text : List UInt8) :
    cstring (a :: text) = if a = 0 then [] else a :: cstring text := by
  by_cases ha : a = 0 <;> simp [cstring, ha]

theorem compare_length_cons (a b : UInt8) (left right : List UInt8) :
    compare (a :: left).length (b :: right).length = compare left.length right.length := by
  simp only [length_cons, Nat.compare_eq_ite_lt]
  grind

theorem stringCompare_cons (a b : UInt8) (left right : List UInt8) :
    stringCompare (a :: left) (b :: right) = match compare a b with
      | .eq => if a = 0 then compare left.length right.length else stringCompare left right
      | order => order := by
  have hmin : min (a :: left).length (b :: right).length = min left.length right.length + 1 := by
    simp [Nat.add_min_add_right]
  rw [stringCompare, hmin, strncmp, compare_length_cons]
  simp only [headD_cons, tail_cons]
  cases compare a b with
  | lt => rfl
  | gt => rfl
  | eq =>
    by_cases ha : a = 0
    · simp only [ha, if_true]
    · simp only [ha, if_false]
      rfl

/-- Texts are ordered by what comes before a terminator, and then by their lengths. -/
theorem stringCompare_eq (left right : List UInt8) : stringCompare left right =
    (compare (cstring left) (cstring right)).then (compare left.length right.length) := by
  induction left generalizing right with
  | nil =>
    cases right with
    | nil => rfl
    | cons b right =>
      by_cases hb : b = 0 <;> simp [stringCompare, strncmp, cstring, hb, Nat.compare_eq_lt]
  | cons a left ih =>
    cases right with
    | nil => by_cases ha : a = 0 <;> simp [stringCompare, strncmp, cstring, ha, Nat.compare_eq_gt]
    | cons b right =>
      rw [stringCompare_cons, cstring_cons, cstring_cons, compare_length_cons]
      cases hcmp : compare a b with
      | lt =>
        have hb : b ≠ 0 := by
          rintro rfl
          exact compare_zero_ne_gt a (Std.OrientedCmp.gt_of_lt hcmp)
        by_cases ha : a = 0 <;> simp [ha, hb, hcmp]
      | gt =>
        have ha : a ≠ 0 := by
          rintro rfl
          exact compare_zero_ne_gt b hcmp
        by_cases hb : b = 0 <;> simp [ha, hb, hcmp]
      | eq =>
        obtain rfl : a = b := Std.LawfulEqCmp.eq_of_compare hcmp
        by_cases ha : a = 0 <;> simp [ha, ih]

theorem entryCompare_eq {Kind : Type} : (entryCompare : RxEntry Kind → RxEntry Kind → Ordering) =
    compareLex (compareOn RxEntry.isRemote) (compareLex (compareOn fun e ↦ cstring e.ke)
      (compareOn fun e ↦ e.ke.length)) := by
  funext first second
  rw [entryCompare, compareLex, compareLex, compareOn, compareOn, compareOn]
  split
  · next hne =>
    cases hremote : compare first.isRemote second.isRemote with
    | lt => rfl
    | gt => rfl
    | eq => exact absurd (Std.LawfulEqCmp.eq_of_compare hremote) hne
  · next heq =>
    have hself : compare second.isRemote second.isRemote = .eq := Std.ReflCmp.compare_self
    rw [not_not.mp heq, stringCompare_eq, hself]
    rfl

instance {Kind : Type} : Std.TransCmp (entryCompare : RxEntry Kind → RxEntry Kind → Ordering) := by
  rw [entryCompare_eq]
  infer_instance

/-! ### The session -/

/-- What is registered in a session, by kinds, and its cache -/
structure RxState (Kind : Type) where
  entities : Kind → List RxEntity
  cache : LruCache (RxEntry Kind)

/-- What happens to a session: registrations, removals, and messages that are received -/
inductive RxEvent (Kind : Type)
  | register (kind : Kind) (entity : RxEntity)
  | unregister (kind : Kind) (id : UInt32)
  | flush
  | trigger (kind : Kind) (isRemote : Bool) (ke : List UInt8)
deriving DecidableEq, Repr

/-- An entity hears a message: it takes its origin, and intersects its key. -/
def RxEntity.hears (intersects : List UInt8 → List UInt8 → Bool) (entity : RxEntity)
    (isRemote : Bool) (ke : List UInt8) : Bool :=
  entity.allowedOrigin.allows isRemote && intersects entity.key ke

section Session

variable {Kind : Type} [DecidableEq Kind] (intersects : List UInt8 → List UInt8 → Bool)

/-- `__unsafe_z_get_subscriptions_by_key`, `__unsafe_z_get_session_queryables_by_key` -/
def entitiesByKey (entities : Kind → List RxEntity) (kind : Kind) (isRemote : Bool)
    (ke : List UInt8) : List RxEntity :=
  (entities kind).filter (·.hears intersects isRemote ke)

/-- What an event does to what is registered -/
def stepEntities (entities : Kind → List RxEntity) : RxEvent Kind → Kind → List RxEntity
  | .register kind entity => fun k ↦ if k = kind then entity :: entities k else entities k
  | .unregister kind id => fun k ↦ if k = kind then (entities k).eraseP (·.id = id) else entities k
  | .flush => fun _ ↦ []
  | .trigger .. => entities

/-- Who is called by an event, without a cache -/
def calls (entities : Kind → List RxEntity) : RxEvent Kind → List RxEntity
  | .trigger kind isRemote ke => entitiesByKey intersects entities kind isRemote ke
  | _ => []

/-- `_z_subscription_get_infos`, `_z_session_queryable_get_infos`, for a key that is resolved -/
def getInfos (w : RxState Kind) (kind : Kind) (isRemote : Bool) (ke : List UInt8) :
    Option (List RxEntity × RxState Kind) :=
  match w.cache.get entryCompare ⟨kind, isRemote, ke, []⟩ with
  | none => none
  | some (cacheEntry, cache) =>
    match cacheEntry.filter (·.isRemote = isRemote) with
    | some entry => some (entry.infos, { w with cache })
    | none =>
      let infos := entitiesByKey intersects w.entities kind isRemote ke
      match cache.insert entryCompare ⟨kind, isRemote, ke, infos⟩ with
      | none => none
      | some cache => some (infos, { w with cache })

/-- One step of a session, and who is called by it. Removals empty the cache, and registrations do
where `invalidate` says so. There is no answer where memory is read that has been freed. -/
def RxState.step (invalidate : Bool) (w : RxState Kind) (e : RxEvent Kind) :
    Option (List RxEntity × RxState Kind) :=
  match e with
  | .register .. =>
    some ([], ⟨stepEntities w.entities e, if invalidate then w.cache.clear else w.cache⟩)
  | .unregister .. | .flush => some ([], ⟨stepEntities w.entities e, w.cache.clear⟩)
  | .trigger kind isRemote ke => getInfos intersects w kind isRemote ke

/-- Who is called by the events of a run -/
def RxState.run (invalidate : Bool) (w : RxState Kind) :
    List (RxEvent Kind) → Option (List (List RxEntity))
  | [] => some []
  | e :: events =>
    match w.step intersects invalidate e with
    | none => none
    | some (called, w') => (w'.run invalidate events).map (called :: ·)

/-- Who is called by the events of a run without a cache: those who hear the message at the time. -/
def runUncached (entities : Kind → List RxEntity) : List (RxEvent Kind) → List (List RxEntity)
  | [] => []
  | e :: events => calls intersects entities e :: runUncached (stepEntities entities e) events

/-- A session in which nothing is registered -/
def RxState.init (capacity : ℕ) : RxState Kind := ⟨fun _ ↦ [], .init capacity⟩

/-- What is registered without emptying the cache is not heard by it: no lookup of its kind is
cached that it would be in. A lookup comes upon an entry that compares equal only if the lookup that
made that would find the same now. One that comes upon none fits into the cache. -/
def RxState.Settled (invalidate : Bool) (w : RxState Kind) : RxEvent Kind → Prop
  | .register kind entity => invalidate = true ∨ ∀ node ∈ w.cache.nodes, node.value.kind = kind →
      entity.hears intersects node.value.isRemote node.value.ke = false
  | .trigger kind isRemote ke =>
    (∀ node ∈ w.cache.nodes, entryCompare node.value ⟨kind, isRemote, ke, []⟩ = .eq →
      entitiesByKey intersects w.entities node.value.kind node.value.isRemote node.value.ke =
        entitiesByKey intersects w.entities kind isRemote ke) ∧
    (w.cache.Misses entryCompare ⟨kind, isRemote, ke, []⟩ →
      w.cache.Fits entryCompare ⟨kind, isRemote, ke, []⟩)
  | _ => True

/-- Every step of a run is settled. -/
def RxState.SettledRun (invalidate : Bool) (w : RxState Kind) : List (RxEvent Kind) → Prop
  | [] => True
  | e :: events => w.Settled intersects invalidate e ∧
      ∀ called w', w.step intersects invalidate e = some (called, w') →
        w'.SettledRun invalidate events

instance (invalidate : Bool) (w : RxState Kind) :
    (e : RxEvent Kind) → Decidable (w.Settled intersects invalidate e)
  | .register .. => inferInstanceAs (Decidable (_ ∨ _))
  | .trigger .. => inferInstanceAs (Decidable (_ ∧ _))
  | .unregister .. | .flush => isTrue trivial

instance decidableSettledRun (invalidate : Bool) :
    (w : RxState Kind) → (events : List (RxEvent Kind)) →
    Decidable (w.SettledRun intersects invalidate events)
  | _, [] => isTrue trivial
  | w, e :: events =>
    match hstep : w.step intersects invalidate e with
    | none => decidable_of_iff (w.Settled intersects invalidate e)
        ⟨fun h ↦ ⟨h, fun _ _ hsome ↦ nomatch hstep.symm.trans hsome⟩, And.left⟩
    | some (called, w') =>
      have : Decidable (w'.SettledRun intersects invalidate events) :=
        decidableSettledRun invalidate w' events
      decidable_of_iff
        (w.Settled intersects invalidate e ∧ w'.SettledRun intersects invalidate events)
        (and_congr_right fun _ ↦
          ⟨fun h _ _ hsome ↦ by cases hstep.symm.trans hsome; exact h, fun h ↦ h _ _ hstep⟩)

/-- The entries of the cache are what the lookups that made them would find now. -/
structure RxState.Inv (w : RxState Kind) : Prop where
  cache : w.cache.Inv entryCompare
  entries : ∀ node ∈ w.cache.nodes, node.value.infos =
    entitiesByKey intersects w.entities node.value.kind node.value.isRemote node.value.ke

variable {intersects} {w : RxState Kind}

omit [DecidableEq Kind] in
theorem init_rxInv {capacity : ℕ} (h : 0 < capacity) :
    (RxState.init capacity : RxState Kind).Inv intersects where
  cache := LruCache.init_inv h
  entries := fun _ hnode ↦ absurd hnode not_mem_nil

omit [DecidableEq Kind] in
/-- An empty cache is right. -/
theorem RxState.Inv.clear (h : w.Inv intersects) (entities : Kind → List RxEntity) :
    RxState.Inv intersects ⟨entities, w.cache.clear⟩ where
  cache := h.cache.clear
  entries := fun _ hnode ↦ absurd hnode not_mem_nil

/-- An entity that no cached lookup hears changes none of them. -/
theorem RxState.Inv.register (h : w.Inv intersects) {kind : Kind} {entity : RxEntity}
    (hunheard : ∀ node ∈ w.cache.nodes, node.value.kind = kind →
      entity.hears intersects node.value.isRemote node.value.ke = false) :
    RxState.Inv intersects ⟨stepEntities w.entities (.register kind entity), w.cache⟩ where
  cache := h.cache
  entries := by
    intro node hnode
    rw [h.entries node hnode, entitiesByKey, entitiesByKey]
    by_cases hkind : node.value.kind = kind
    · have hunheard := hunheard node hnode hkind
      simp [stepEntities, hkind, hunheard]
    · simp [stepEntities, hkind]

omit [DecidableEq Kind] in
/-- Entries that compare equal have one origin. -/
theorem isRemote_of_entryCompare {first second : RxEntry Kind}
    (h : entryCompare first second = .eq) : first.isRemote = second.isRemote := by
  rw [entryCompare] at h
  split at h
  · exact Std.LawfulEqCmp.eq_of_compare h
  · next heq => exact not_not.mp heq

variable {invalidate : Bool}

/-- A settled lookup answers as without the cache. -/
theorem RxState.Inv.trigger (h : w.Inv intersects) {kind : Kind} {isRemote : Bool} {ke : List UInt8}
    (hsettled : w.Settled intersects invalidate (.trigger kind isRemote ke)) :
    ∃ cache, getInfos intersects w kind isRemote ke =
      some (entitiesByKey intersects w.entities kind isRemote ke, ⟨w.entities, cache⟩) ∧
      RxState.Inv intersects ⟨w.entities, cache⟩ := by
  obtain ⟨hsame, hfits⟩ := hsettled
  obtain ⟨found, cache, hget, hcache, hcapacity, hperm, hfound⟩ :=
    h.cache.get ⟨kind, isRemote, ke, []⟩
  rw [getInfos, hget]
  cases found with
  | none =>
    obtain ⟨rfl, hmiss⟩ := hfound
    obtain ⟨cache', hinsert, hcache', -, hnodes⟩ := h.cache.insert
      ⟨kind, isRemote, ke, entitiesByKey intersects w.entities kind isRemote ke⟩ hmiss
      (hfits hmiss)
    dsimp only [Option.filter_none]
    rw [hinsert]
    refine ⟨cache', rfl, hcache', fun node hnode ↦ ?_⟩
    rw [hnodes] at hnode
    rcases mem_cons.mp hnode with rfl | hold
    · rfl
    · refine h.entries node ?_
      split at hold
      · exact (dropLast_sublist _).subset hold
      · exact hold
  | some entry =>
    obtain ⟨node, hnode, rfl, hcmp⟩ := hfound
    have hremote : node.value.isRemote = isRemote := isRemote_of_entryCompare hcmp
    have hfilter : (some node.value).filter (fun e ↦ decide (e.isRemote = isRemote)) =
        some node.value := by simp [hremote]
    dsimp only
    rw [hfilter]
    dsimp only
    rw [h.entries node hnode, hsame node hnode hcmp]
    exact ⟨cache, rfl, hcache, fun other hother ↦ h.entries other (hperm.mem_iff.mp hother)⟩

/-- A settled step calls those who hear it, and keeps the cache right. -/
theorem RxState.Inv.next (h : w.Inv intersects) {e : RxEvent Kind}
    (hsettled : w.Settled intersects invalidate e) : ∃ cache, w.step intersects invalidate e =
        some (calls intersects w.entities e, ⟨stepEntities w.entities e, cache⟩) ∧
      RxState.Inv intersects ⟨stepEntities w.entities e, cache⟩ := by
  cases e with
  | register kind entity =>
    refine ⟨_, rfl, ?_⟩
    split
    · exact h.clear _
    · next hkeeps => exact h.register (hsettled.resolve_left hkeeps)
  | unregister kind id => exact ⟨_, rfl, h.clear _⟩
  | flush => exact ⟨_, rfl, h.clear _⟩
  | trigger kind isRemote ke => exact h.trigger hsettled

/-- A settled run calls those who hear its messages. -/
theorem RxState.Inv.run (h : w.Inv intersects) {events : List (RxEvent Kind)}
    (hsettled : w.SettledRun intersects invalidate events) :
    w.run intersects invalidate events = some (runUncached intersects w.entities events) := by
  induction events generalizing w with
  | nil => rfl
  | cons e events ih =>
    obtain ⟨cache, hstep, hinv⟩ := h.next hsettled.1
    rw [RxState.run, hstep, runUncached]
    dsimp only
    rw [ih hinv (hsettled.2 _ _ hstep)]
    rfl

end Session

/-! ### Queryables -/

/-- The queryables of a session: registering one empties the cache. -/
abbrev runQueryables (intersects : List UInt8 → List UInt8 → Bool) (capacity : ℕ)
    (events : List (RxEvent Unit)) : Option (List (List RxEntity)) :=
  (RxState.init capacity).run intersects true events

/-- In a settled run, a query is handed to the queryables that hear it, as without a cache. -/
theorem queryables_transparent_of_settled (intersects : List UInt8 → List UInt8 → Bool)
    {capacity : ℕ} (hcapacity : 0 < capacity) {events : List (RxEvent Unit)}
    (h : (RxState.init capacity).SettledRun intersects true events) :
    runQueryables intersects capacity events = some (runUncached intersects (fun _ ↦ []) events) :=
  (init_rxInv hcapacity).run h

/-- A query of a key comes three times, the last one answered by the cache, and once more without
its queryable. -/
def queriesOfOneKey : List (RxEvent Unit) :=
  [.trigger () true [97], .register () ⟨1, [97], .any⟩, .trigger () true [97], .trigger () true [97],
    .unregister () 1, .trigger () true [97]]

theorem queries_transparent_registered : runQueryables (· == ·) 10 queriesOfOneKey =
      some (runUncached (· == ·) (fun _ ↦ []) queriesOfOneKey) :=
  queryables_transparent_of_settled _ (by decide) (by decide +kernel)

/-- Ten keys are queried, and another one that is less than the last of them only. When that one is
to leave the cache it is not found in the array, where it stays when it is freed. -/
def queriesOfManyKeys : List (RxEvent Unit) :=
  [97, 98, 99, 100, 101, 102, 103, 104, 105, 122, 113, 98, 99, 100, 101, 102, 103, 104, 105, 122,
    126, 123].map fun c ↦ .trigger () true [c]

theorem queries_not_transparent_freed :
    ¬ ∀ (intersects : List UInt8 → List UInt8 → Bool) (capacity : ℕ) (events : List (RxEvent Unit)),
      0 < capacity → runQueryables intersects capacity events =
        some (runUncached intersects (fun _ ↦ []) events) := by
  intro h
  exact absurd (h (· == ·) 10 queriesOfManyKeys (by decide)) (by decide +kernel)

/-! ### Subscribers -/

/-- `_z_subscriber_kind_t` -/
inductive SubscriberKind
  | subscriber
  | livelinessSubscriber
deriving DecidableEq, Repr

/-- The subscribers of a session: the cache is kept when one is registered. -/
abbrev runSubscriptions (intersects : List UInt8 → List UInt8 → Bool) (capacity : ℕ)
    (events : List (RxEvent SubscriberKind)) : Option (List (List RxEntity)) :=
  (RxState.init capacity).run intersects false events

/-- In a settled run, samples and tokens are delivered to the subscribers of their kind that hear
them, as without a cache. -/
theorem subscriptions_transparent_of_settled (intersects : List UInt8 → List UInt8 → Bool)
    {capacity : ℕ} (hcapacity : 0 < capacity) {events : List (RxEvent SubscriberKind)}
    (h : (RxState.init capacity).SettledRun intersects false events) :
    runSubscriptions intersects capacity events =
      some (runUncached intersects (fun _ ↦ []) events) :=
  (init_rxInv hcapacity).run h

/-- A subscriber is registered before samples of its key come, the second of which is answered by the
cache, and another one before a sample of another key. -/
def samplesAfterRegistration : List (RxEvent SubscriberKind) :=
  [.register .subscriber ⟨1, [97], .any⟩, .trigger .subscriber true [97],
    .trigger .subscriber true [97], .register .subscriber ⟨2, [98], .any⟩,
    .trigger .subscriber true [98], .trigger .subscriber true [97]]

theorem samples_transparent_registered : runSubscriptions (· == ·) 10 samplesAfterRegistration =
      some (runUncached (· == ·) (fun _ ↦ []) samplesAfterRegistration) :=
  subscriptions_transparent_of_settled _ (by decide) (by decide +kernel)

/-- A subscriber that is registered after a sample of its key came does not get the next one. -/
theorem samples_not_transparent_stale :
    ¬ ∀ (intersects : List UInt8 → List UInt8 → Bool) (capacity : ℕ)
      (events : List (RxEvent SubscriberKind)),
      0 < capacity → runSubscriptions intersects capacity events =
        some (runUncached intersects (fun _ ↦ []) events) := by
  intro h
  exact absurd (h (· == ·) 10 [.trigger .subscriber true [97],
    .register .subscriber ⟨1, [97], .any⟩, .trigger .subscriber true [97]] (by decide))
    (by decide +kernel)

end ZenohPico.Session
