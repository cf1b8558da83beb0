import ZenohPico.Collections.HashMap

/-!
The cancellation token (`src/session/cancellation.c`,
`include/zenoh-pico/session/cancellation.h`).

Handlers are kept in a map under numbered ids. The first cancel takes the map over, calls its
handlers up to the first one that fails and drops all of them. The registrations that were accepted
are numbered here, and what runs is logged under these numbers.
-/

open List Option

namespace ZenohPico.Session

open Collections

/-- `_z_cancellation_token_on_cancel_handler_t`: the result of `_on_cancel` and whether there is an
`_on_drop` -/
structure CancelHandler where
  onCancel : Option Bool
  onDrop : Bool
deriving DecidableEq, Repr

/-- An accepted handler with the number of its registration -/
structure CancelRegistration where
  number : ℕ
  handler : CancelHandler
deriving DecidableEq, Repr

/-- A call of a handler's `_on_cancel` or of its `_on_drop` -/
inductive CancelEvent
  | called (number : ℕ)
  | dropped (number : ℕ)
deriving DecidableEq, Repr

namespace CancelRegistration

variable (h : CancelRegistration)

/-- `_z_cancellation_token_on_cancel_handler_drop` -/
def drop : List CancelEvent := if h.handler.onDrop then [.dropped h.number] else []

/-- What the drop leaves of a handler -/
def null : CancelRegistration := { h with handler := ⟨none, false⟩ }

/-- `_z_cancellation_token_on_cancel_handler_call`: what runs -/
def call : List CancelEvent :=
  (if h.handler.onCancel.isSome then [.called h.number] else []) ++ h.drop

/-- `_z_cancellation_token_on_cancel_handler_call`: whether its result is `_Z_RES_OK` -/
def succeeds : Bool := h.handler.onCancel.getD true

end CancelRegistration

/-- `_z_cancellation_token_on_cancel_handler_intmap_clear` -/
def clearHandlers (handlers : List CancelRegistration) : List CancelEvent :=
  handlers.flatMap CancelRegistration.drop

/-- The loop of `_z_cancellation_handlers_storage_cancel`: what runs, what it leaves in the map and
whether no handler failed -/
def callHandlers : List CancelRegistration → List CancelEvent × List CancelRegistration × Bool
  | [] => ([], [], true)
  | h :: rest =>
    if h.succeeds then
      (h.call ++ (callHandlers rest).1, h.null :: (callHandlers rest).2.1, (callHandlers rest).2.2)
    else (h.call, h.null :: rest, false)

/-- `_z_cancellation_handlers_storage_cancel`: what runs -/
def storageCancel (handlers : List CancelRegistration) : List CancelEvent :=
  (callHandlers handlers).1 ++ clearHandlers (callHandlers handlers).2.1

/-- `_Z_DEFAULT_INT_MAP_CAPACITY` -/
def intMapCapacity : ℕ := 16

/-- The number of values of a `size_t` -/
def sizeRange : ℕ := 0x10000000000000000

/-- `_z_cancellation_token_t`, with the handlers that were accepted and what has run -/
structure CancellationToken where
  /-- `_handlers._handlers` -/
  handlers : HashMap ℕ CancelRegistration
  /-- `_handlers._next_handler_id` -/
  nextHandlerId : ℕ
  /-- `_z_sync_group_notifier_check` of `_handlers._cancel_sync_notifier` -/
  notifier : Bool
  /-- `_cancel_result` is `_Z_RES_OK`. -/
  cancelResult : Bool
  accepted : List CancelHandler
  log : List CancelEvent

/-- Which allocation of a registration fails, if one does -/
inductive AddMemory
  | enough
  | noHandler
  | noEntry
  | noListNode
deriving DecidableEq, Repr

inductive AddResult
  | ok (id : ℕ)
  | cancelled
  | outOfMemory
deriving DecidableEq, Repr

inductive TokenOp
  | add (h : CancelHandler) (memory : AddMemory)
  | remove (id : ℕ)
  | cancel

namespace CancellationToken

/-- The map of `_z_cancellation_handlers_storage_null` -/
def nullHandlers : HashMap ℕ CancelRegistration := HashMap.make intMapCapacity id

/-- `_z_cancellation_token_create` -/
def create : CancellationToken where
  handlers := nullHandlers
  nextHandlerId := 0
  notifier := true
  cancelResult := true
  accepted := []
  log := []

variable (t : CancellationToken)

/-- The handlers in the map, in the order of its iteration -/
def registered : List CancelRegistration := t.handlers.entries.map Prod.snd

/-- `_z_cancellation_handlers_storage_remove` -/
def remove (id : ℕ) : CancellationToken :=
  { t with
    handlers := t.handlers.remove id
    log := t.log ++ (t.handlers.get id).elim [] CancelRegistration.drop }

/-- What a registration does to the token besides the map -/
def accept (h : CancelHandler) : CancellationToken :=
  { t with
    nextHandlerId := (t.nextHandlerId + 1) % sizeRange
    accepted := t.accepted ++ [h] }

/-- `_z_cancellation_handlers_storage_add`. The map first removes what is under the id; where there
is no memory for the node of its list, it reports the entry as inserted all the same. -/
def storageAdd (h : CancelHandler) : AddMemory → AddResult × CancellationToken
  | .enough =>
    (.ok t.nextHandlerId, { (t.remove t.nextHandlerId).accept h with
        handlers := t.handlers.insert t.nextHandlerId ⟨t.accepted.length, h⟩ true })
  | .noHandler => (.outOfMemory, t)
  | .noEntry => (.outOfMemory, t.remove t.nextHandlerId)
  | .noListNode => (.ok t.nextHandlerId, (t.remove t.nextHandlerId).accept h)

/-- `_z_cancellation_token_add_on_cancel_handler` -/
def add (h : CancelHandler) (memory : AddMemory) : AddResult × CancellationToken :=
  if t.notifier then t.storageAdd h memory else (.cancelled, t)

/-- `_z_cancellation_token_cancel` -/
def cancel : CancellationToken :=
  { t with
    handlers := nullHandlers
    nextHandlerId := 0
    notifier := false
    cancelResult := if t.notifier then (callHandlers t.registered).2.2 else t.cancelResult
    log := if t.notifier then t.log ++ storageCancel t.registered else t.log }

/-- `_z_cancellation_token_clear` -/
def clear : CancellationToken :=
  { t with
    handlers := nullHandlers
    notifier := false
    log := t.log ++ clearHandlers t.registered }

def step : TokenOp → CancellationToken
  | .add h memory => (t.add h memory).2
  | .remove id => t.remove id
  | .cancel => t.cancel

/-- A registration whose list node is allocated, and whose id is not that of a handler that is still
registered -/
def Sane : TokenOp → Prop
  | .add _ memory => memory ≠ .noListNode ∧ t.handlers.get t.nextHandlerId = none
  | _ => True

/-- From one state to a later one -/
inductive Run (t : CancellationToken) : CancellationToken → Prop
  | refl : Run t t
  | step {t' : CancellationToken} (h : Run t t') (op : TokenOp) (hsane : t'.Sane op) :
    Run t (t'.step op)

end CancellationToken

/-! ### What the handlers run -/

variable {before after : List CancelRegistration}

section Handlers

variable {h : CancelRegistration} {handlers : List CancelRegistration} {n : ℕ}

theorem count_called_drop : h.drop.count (.called n) = 0 := by
  rw [CancelRegistration.drop]
  split <;> simp

theorem count_dropped_drop :
    h.drop.count (.dropped n) = if h.handler.onDrop ∧ h.number = n then 1 else 0 := by
  rw [CancelRegistration.drop]
  by_cases hdrop : h.handler.onDrop = true
  · by_cases hn : h.number = n <;> simp [hdrop, hn]
  · simp [hdrop]

theorem drop_null : h.null.drop = [] := rfl

theorem count_dropped_call : h.call.count (.dropped n) = h.drop.count (.dropped n) := by
  rw [CancelRegistration.call, count_append]
  split <;> simp

theorem count_called_call :
    h.call.count (.called n) = if h.handler.onCancel.isSome ∧ h.number = n then 1 else 0 := by
  rw [CancelRegistration.call, count_append, count_called_drop, Nat.add_zero]
  by_cases hcancel : h.handler.onCancel.isSome = true
  · by_cases hn : h.number = n <;> simp [hcancel, hn]
  · simp [hcancel]

theorem count_called_clearHandlers : (clearHandlers handlers).count (.called n) = 0 := by
  refine count_eq_zero.mpr fun hmem ↦ ?_
  obtain ⟨h, -, hmem⟩ := mem_flatMap.mp hmem
  exact count_eq_zero.mp count_called_drop hmem

theorem count_clearHandlers_cons (e : CancelEvent) : (clearHandlers (h :: handlers)).count e =
      h.drop.count e + (clearHandlers handlers).count e := by
  rw [clearHandlers, flatMap_cons, count_append]
  rfl

/-- A cancel drops what a clear would drop. -/
theorem count_dropped_storageCancel :
    (storageCancel handlers).count (.dropped n) = (clearHandlers handlers).count (.dropped n) := by
  induction handlers with
  | nil => rfl
  | cons h rest ih =>
    rw [storageCancel, count_append] at ih ⊢
    rw [callHandlers, count_clearHandlers_cons]
    split
    · rw [count_clearHandlers_cons, drop_null, count_nil, Nat.zero_add, count_append,
        count_dropped_call, Nat.add_assoc, ih]
    · rw [count_clearHandlers_cons, drop_null, count_nil, Nat.zero_add, count_dropped_call]

theorem count_called_storageCancel_cons : (storageCancel (h :: handlers)).count (.called n) =
      h.call.count (.called n) +
        if h.succeeds then (storageCancel handlers).count (.called n) else 0 := by
  rw [storageCancel, count_append, count_called_clearHandlers, Nat.add_zero, callHandlers,
    storageCancel, count_append, count_called_clearHandlers, Nat.add_zero]
  split
  · rw [count_append]
  · rfl

theorem count_called_storageCancel_le : (storageCancel handlers).count (.called n) ≤
      (handlers.map CancelRegistration.number).count n := by
  induction handlers with
  | nil => exact le_rfl
  | cons h rest ih =>
    rw [count_called_storageCancel_cons, map_cons, count_cons, count_called_call]
    by_cases hn : h.number = n
    · rw [if_pos (beq_iff_eq.mpr hn)]
      split <;> split <;> omega
    · rw [if_neg fun hcall ↦ hn hcall.2]
      split <;> omega

/-- A handler is called if and only if none before it fails. -/
theorem count_called_storageCancel
    (honce : ((before ++ h :: after).map CancelRegistration.number).count h.number ≤ 1) :
    (storageCancel (before ++ h :: after)).count (.called h.number) =
      if h.handler.onCancel.isSome ∧ ∀ b ∈ before, b.succeeds then 1 else 0 := by
  induction before with
  | nil =>
    rw [nil_append, map_cons, count_cons_self] at honce
    have hafter := @count_called_storageCancel_le after h.number
    rw [nil_append, count_called_storageCancel_cons, count_called_call]
    have hnone : (storageCancel after).count (.called h.number) = 0 := by omega
    rw [hnone, ite_self, Nat.add_zero]
    simp
  | cons b before ih =>
    rw [cons_append, map_cons, count_cons] at honce
    have hmem : 0 < ((before ++ h :: after).map CancelRegistration.number).count h.number :=
      count_pos_iff.mpr (mem_map_of_mem (mem_append_right _ mem_cons_self))
    have hb : ¬ (b.number == h.number) = true := fun hb ↦ by
      rw [if_pos hb] at honce
      omega
    rw [if_neg hb] at honce
    rw [cons_append, count_called_storageCancel_cons, count_called_call,
      if_neg fun hcall ↦ hb (beq_iff_eq.mpr hcall.2), Nat.zero_add, ih honce]
    by_cases hsucceeds : b.succeeds = true
    · simp [hsucceeds]
    · simp [hsucceeds]

end Handlers

namespace CancellationToken

/-! ### The invariant -/

/-- The map is one of the int maps, and its entries are where their keys lead. -/
structure WellKept (map : HashMap ℕ CancelRegistration) : Prop where
  capacity : map.capacity = intMapCapacity
  unrepeated : map.Unrepeated
  placed : map.Placed

theorem wellKept_nullHandlers : WellKept nullHandlers where
  capacity := rfl
  unrepeated := HashMap.unrepeated_make _ _
  placed := HashMap.placed_make _ _

section WellKept

variable {map : HashMap ℕ CancelRegistration} {id : ℕ} {h : CancelRegistration}

theorem WellKept.capacity_pos (hmap : WellKept map) : 0 < map.capacity := by
  rw [hmap.capacity]
  decide

theorem WellKept.remove (hmap : WellKept map) : WellKept (map.remove id) where
  capacity := hmap.capacity
  unrepeated := hmap.unrepeated.remove id
  placed := hmap.placed.remove id

theorem WellKept.insert (hmap : WellKept map) : WellKept (map.insert id h true) where
  capacity := (HashMap.capacity_insert _ _ _ _).trans hmap.capacity
  unrepeated := hmap.unrepeated.insert id h
  placed := hmap.placed.insert id h

end WellKept

/-- What was called is registered no more, and what was dropped together with what a clear would
drop is every accepted handler once. -/
structure Inv (t : CancellationToken) : Prop where
  wellKept : WellKept t.handlers
  numbered : ∀ h ∈ t.registered, t.accepted[h.number]? = some h.handler
  called_le : ∀ n, t.log.count (.called n) + (t.registered.map CancelRegistration.number).count n ≤
    if n < t.accepted.length then 1 else 0
  dropped_eq : ∀ n, t.log.count (.dropped n) + (clearHandlers t.registered).count (.dropped n) =
    if (t.accepted[n]?).any CancelHandler.onDrop then 1 else 0
  uncalled : t.notifier = true → ∀ n, t.log.count (.called n) = 0
  cancelled : t.notifier = false → t.handlers = nullHandlers

theorem inv_create : create.Inv where
  wellKept := wellKept_nullHandlers
  numbered := fun _ h ↦ absurd h not_mem_nil
  called_le := fun _ ↦ Nat.zero_le _
  dropped_eq := fun _ ↦ rfl
  uncalled := fun _ _ ↦ rfl
  cancelled := fun h ↦ absurd h.symm Bool.false_ne_true

variable {t : CancellationToken} {id : ℕ}

theorem remove_of_absent (h : t.handlers.get id = none) : t.remove id = t := by
  rw [remove, HashMap.remove_of_get_eq_none h, h, elim_none, append_nil]

variable {e : CancelRegistration}

theorem log_remove (h : t.handlers.get id = some e) : (t.remove id).log = t.log ++ e.drop := by
  rw [remove, h]
  rfl

theorem log_storageAdd (h : CancelHandler) (hfresh : t.handlers.get t.nextHandlerId = none) :
    (t.storageAdd h .enough).2.log = t.log := by
  change (t.remove t.nextHandlerId).log = t.log
  rw [remove_of_absent hfresh]

theorem count_log_cancel (e : CancelEvent) : t.cancel.log.count e =
      t.log.count e + if t.notifier then (storageCancel t.registered).count e else 0 := by
  change (if t.notifier then t.log ++ storageCancel t.registered else t.log).count e = _
  split
  · rw [count_append]
  · rfl

theorem registered_perm_remove (hmap : WellKept t.handlers) {h : CancelRegistration}
    (hget : t.handlers.get id = some h) : t.registered.Perm (h :: (t.remove id).registered) :=
  (HashMap.entries_perm_remove hmap.capacity_pos hget).map Prod.snd

theorem count_clearHandlers_perm {l l' : List CancelRegistration} (h : l.Perm l')
    (e : CancelEvent) : (clearHandlers l).count e = (clearHandlers l').count e :=
  (h.flatMap_right _).count_eq e

theorem Inv.remove (h : t.Inv) (id : ℕ) : (t.remove id).Inv := by
  cases hget : t.handlers.get id with
  | none => rwa [remove_of_absent hget]
  | some e =>
    have hperm := registered_perm_remove h.wellKept hget
    have hlog := log_remove hget
    have hcalled (n : ℕ) : (t.remove id).log.count (.called n) = t.log.count (.called n) := by
      rw [hlog, count_append, count_called_drop, Nat.add_zero]
    refine ⟨h.wellKept.remove, fun e' he' ↦ ?_, fun n ↦ ?_, fun n ↦ ?_, fun hnotifier n ↦ ?_,
      fun hnotifier ↦ ?_⟩
    · exact h.numbered e' (hperm.mem_iff.mpr (mem_cons_of_mem _ he'))
    · have hle := h.called_le n
      rw [(hperm.map _).count_eq, map_cons, count_cons] at hle
      rw [hcalled]
      exact le_trans (by omega) hle
    · have heq := h.dropped_eq n
      rw [count_clearHandlers_perm hperm, count_clearHandlers_cons, ← Nat.add_assoc,
        ← count_append, ← hlog] at heq
      exact heq
    · rw [hcalled]
      exact h.uncalled hnotifier n
    · have hnull := h.cancelled hnotifier
      rw [hnull] at hget
      cases hget

theorem registered_add {h : CancelHandler} (hmap : WellKept t.handlers)
    (hfresh : t.handlers.get t.nextHandlerId = none) :
    (t.storageAdd h .enough).2.registered.Perm (⟨t.accepted.length, h⟩ :: t.registered) :=
  (HashMap.entries_insert_perm hmap.capacity_pos hfresh).map Prod.snd

theorem any_concat {accepted : List CancelHandler} {h : CancelHandler} (n : ℕ) :
    (if ((accepted ++ [h])[n]?).any CancelHandler.onDrop then 1 else 0) =
      (if h.onDrop ∧ accepted.length = n then 1 else 0) +
        if (accepted[n]?).any CancelHandler.onDrop then 1 else 0 := by
  have hother (hne : accepted.length ≠ n) : ¬ (h.onDrop = true ∧ accepted.length = n) :=
    fun hand ↦ hne hand.2
  rcases Nat.lt_trichotomy n accepted.length with hlt | rfl | hgt
  · rw [List.getElem?_append_left hlt, if_neg (hother hlt.ne'), Nat.zero_add]
  · simp
  · rw [if_neg (hother hgt.ne), Nat.zero_add, List.getElem?_eq_none hgt.le,
      List.getElem?_eq_none (by rw [length_append]; exact hgt)]

/-- A registration under an id that is free adds one handler. -/
theorem Inv.storageAdd (hinv : t.Inv) (hnotifier : t.notifier = true) (h : CancelHandler)
    (hfresh : t.handlers.get t.nextHandlerId = none) : (t.storageAdd h .enough).2.Inv := by
  have hperm := registered_add (h := h) hinv.wellKept hfresh
  have hlog := log_storageAdd h hfresh
  refine ⟨hinv.wellKept.insert, fun e he ↦ ?_, fun n ↦ ?_, fun n ↦ ?_, fun _ n ↦ ?_,
    fun hoff ↦ absurd (hoff.symm.trans hnotifier) Bool.false_ne_true⟩
  · change (t.accepted ++ [h])[e.number]? = some e.handler
    obtain rfl | he := mem_cons.mp (hperm.mem_iff.mp he)
    · exact List.getElem?_concat_length
    · have hold := hinv.numbered e he
      rw [List.getElem?_append_left (List.getElem?_eq_some_iff.mp hold).1, hold]
  · change _ ≤ if n < (t.accepted ++ [h]).length then 1 else 0
    have hle := hinv.called_le n
    rw [hlog, (hperm.map _).count_eq, map_cons, count_cons, length_append, length_singleton]
    by_cases hn : t.accepted.length = n
    · rw [if_neg (by omega)] at hle
      rw [if_pos (beq_iff_eq.mpr hn), if_pos (by omega)]
      omega
    · rw [if_neg (by simpa using hn)]
      split_ifs at hle ⊢ <;> omega
  · change _ = if ((t.accepted ++ [h])[n]?).any CancelHandler.onDrop then 1 else 0
    rw [any_concat, ← hinv.dropped_eq n, hlog, count_clearHandlers_perm hperm,
      count_clearHandlers_cons, count_dropped_drop]
    exact Nat.add_left_comm _ _ _
  · rw [hlog]
    exact hinv.uncalled hnotifier n

theorem Inv.cancel (h : t.Inv) : t.cancel.Inv := by
  have hcases : t.notifier = true ∨ t.notifier = false := by cases t.notifier <;> simp
  have hnone : t.cancel.registered = [] := rfl
  refine ⟨wellKept_nullHandlers, fun e he ↦ ?_, fun n ↦ ?_, fun n ↦ ?_,
    fun hon ↦ absurd hon Bool.false_ne_true, fun _ ↦ rfl⟩
  · rw [hnone] at he
    exact absurd he not_mem_nil
  · have hle := h.called_le n
    have hevents := @count_called_storageCancel_le t.registered n
    rw [hnone, map_nil, count_nil, Nat.add_zero]
    refine le_trans ?_ hle
    rw [count_log_cancel]
    split <;> omega
  · change _ = if (t.accepted[n]?).any CancelHandler.onDrop then 1 else 0
    rw [← h.dropped_eq n, hnone, count_log_cancel, count_dropped_storageCancel, Nat.add_assoc]
    obtain hon | hoff := hcases
    · rw [if_pos hon]
      rfl
    · rw [if_neg (ne_true_of_eq_false hoff), registered, h.cancelled hoff]
      rfl

/-- Every operation but a registration that meets no condition keeps the invariant. -/
theorem Inv.step (h : t.Inv) {op : TokenOp} (hsane : t.Sane op) : (t.step op).Inv := by
  cases op with
  | add e memory =>
    obtain ⟨hnode, hfresh⟩ := hsane
    change (t.add e memory).2.Inv
    rw [add]
    split
    · next hnotifier =>
      cases memory with
      | enough => exact h.storageAdd hnotifier e hfresh
      | noHandler => exact h
      | noEntry => exact h.remove _
      | noListNode => exact absurd rfl hnode
    · exact h
  | remove id => exact h.remove id
  | cancel => exact h.cancel

variable {t' : CancellationToken}

theorem Run.inv (h : t.Inv) (hrun : t.Run t') : t'.Inv := by
  induction hrun with
  | refl => exact h
  | step _ op hsane ih => exact ih.step hsane

/-! ### A handler that is registered, and one that is not any more -/

/-- The numbers of the handlers in the map -/
def numbers (t : CancellationToken) : List ℕ := t.registered.map CancelRegistration.number

theorem Inv.uncalled_of_mem (h : t.Inv) (he : e ∈ t.registered) :
    t.log.count (.called e.number) = 0 := by
  have hle := h.called_le e.number
  have hpos : 0 < (t.registered.map CancelRegistration.number).count e.number :=
    count_pos_iff.mpr (mem_map_of_mem he)
  split_ifs at hle <;> omega

theorem Inv.undropped_of_mem (h : t.Inv) (he : e ∈ t.registered) :
    t.log.count (.dropped e.number) = 0 := by
  have heq := h.dropped_eq e.number
  rw [h.numbered e he, any_some] at heq
  by_cases hdrop : e.handler.onDrop = true
  · have hmem : CancelEvent.dropped e.number ∈ clearHandlers t.registered :=
      mem_flatMap.mpr ⟨e, he, by simp [CancelRegistration.drop, hdrop]⟩
    have hpos := count_pos_iff.mpr hmem
    rw [if_pos hdrop] at heq
    omega
  · rw [if_neg hdrop] at heq
    omega

theorem Inv.nodup_numbers (h : t.Inv) : t.numbers.Nodup := by
  rw [nodup_iff_count_le_one]
  intro n
  have hle := h.called_le n
  rw [numbers]
  split_ifs at hle <;> omega

theorem count_drop_of_ne {n : ℕ} (h : e.number ≠ n) : e.drop.count (.dropped n) = 0 := by
  rw [count_dropped_drop, if_neg fun hand ↦ h hand.2]

theorem count_clearHandlers_of_not_mem {handlers : List CancelRegistration} {n : ℕ}
    (h : n ∉ handlers.map CancelRegistration.number) :
    (clearHandlers handlers).count (.dropped n) = 0 := by
  induction handlers with
  | nil => rfl
  | cons e rest ih =>
    rw [map_cons, mem_cons, not_or] at h
    rw [count_clearHandlers_cons, count_drop_of_ne (Ne.symm h.1), ih h.2]

theorem Inv.dropped_of_not_mem (h : t.Inv) {n : ℕ} {e : CancelHandler}
    (he : t.accepted[n]? = some e) (hn : n ∉ t.numbers) :
    t.log.count (.dropped n) = if e.onDrop then 1 else 0 := by
  have heq := h.dropped_eq n
  rwa [count_clearHandlers_of_not_mem hn, Nat.add_zero, he, any_some] at heq

/-- The handler of a number is registered no more, and its calls are those of the first state. -/
structure Gone (t : CancellationToken) (n : ℕ) (t' : CancellationToken) : Prop where
  accepted : n < t'.accepted.length
  not_mem : n ∉ t'.numbers
  called_eq : t'.log.count (.called n) = t.log.count (.called n)
  dropped_eq : t'.log.count (.dropped n) = t.log.count (.dropped n)

theorem Gone.remove {n : ℕ} (hinv : t'.Inv) (h : t.Gone n t') (id : ℕ) :
    t.Gone n (t'.remove id) := by
  cases hget : t'.handlers.get id with
  | none => rwa [remove_of_absent hget]
  | some e =>
    have hperm := (registered_perm_remove hinv.wellKept hget).map CancelRegistration.number
    have hlog := log_remove hget
    have hne : e.number ≠ n := fun heq ↦ h.not_mem (hperm.mem_iff.mpr (heq ▸ mem_cons_self))
    refine ⟨h.accepted, fun hmem ↦ h.not_mem (hperm.mem_iff.mpr (mem_cons_of_mem _ hmem)), ?_, ?_⟩
    · rw [hlog, count_append, count_called_drop, Nat.add_zero, h.called_eq]
    · rw [hlog, count_append, count_drop_of_ne hne, Nat.add_zero, h.dropped_eq]

theorem Gone.storageAdd {n : ℕ} (hinv : t'.Inv) (h : t.Gone n t') (e : CancelHandler)
    (hfresh : t'.handlers.get t'.nextHandlerId = none) : t.Gone n (t'.storageAdd e .enough).2 := by
  have hperm := (registered_add (h := e) hinv.wellKept hfresh).map CancelRegistration.number
  have hlog := log_storageAdd e hfresh
  refine ⟨?_, fun hmem ↦ ?_, by rw [hlog, h.called_eq], by rw [hlog, h.dropped_eq]⟩
  · change n < (t'.accepted ++ [e]).length
    rw [length_append]
    exact h.accepted.trans (Nat.lt_succ_self _)
  · obtain heq | hmem := mem_cons.mp (hperm.mem_iff.mp hmem)
    · exact absurd heq h.accepted.ne
    · exact h.not_mem hmem

theorem Gone.cancel {n : ℕ} (h : t.Gone n t') : t.Gone n t'.cancel := by
  have hcalled : (storageCancel t'.registered).count (.called n) = 0 :=
    Nat.le_zero.mp (count_called_storageCancel_le.trans (count_eq_zero.mpr h.not_mem).le)
  have hdropped : (storageCancel t'.registered).count (.dropped n) = 0 :=
    count_dropped_storageCancel.trans (count_clearHandlers_of_not_mem h.not_mem)
  refine ⟨h.accepted, not_mem_nil, ?_, ?_⟩
  · rw [count_log_cancel, hcalled, ite_self, Nat.add_zero, h.called_eq]
  · rw [count_log_cancel, hdropped, ite_self, Nat.add_zero, h.dropped_eq]

theorem Gone.step {n : ℕ} {t' : CancellationToken} (hinv : t'.Inv) (h : t.Gone n t')
    {op : TokenOp} (hsane : t'.Sane op) : t.Gone n (t'.step op) := by
  cases op with
  | add e memory =>
    obtain ⟨hnode, hfresh⟩ := hsane
    change t.Gone n (t'.add e memory).2
    rw [add]
    split
    · cases memory with
      | enough => exact h.storageAdd hinv e hfresh
      | noHandler => exact h
      | noEntry => exact h.remove hinv _
      | noListNode => exact absurd rfl hnode
    · exact h
  | remove id => exact h.remove hinv id
  | cancel => exact h.cancel

theorem Run.gone (hrun : t.Run t') (hinv : t.Inv) {n : ℕ} (haccepted : n < t.accepted.length)
    (hn : n ∉ t.numbers) : t.Gone n t' := by
  induction hrun with
  | refl => exact ⟨haccepted, hn, rfl, rfl⟩
  | step hrun op hsane ih => exact ih.step (hrun.inv hinv) hsane

/-! ### Ids -/

/-- Ids are the numbers of the registrations, as far as a `size_t` goes. -/
structure IdsCount (t : CancellationToken) : Prop where
  next_eq : t.notifier = true → t.nextHandlerId = t.accepted.length % sizeRange
  ids_eq : ∀ p ∈ t.handlers.entries, p.1 = p.2.number % sizeRange

theorem IdsCount.remove (hmap : WellKept t.handlers) (h : t.IdsCount) (id : ℕ) :
    (t.remove id).IdsCount := by
  cases hget : t.handlers.get id with
  | none => rwa [remove_of_absent hget]
  | some e =>
    have hperm := HashMap.entries_perm_remove hmap.capacity_pos hget
    exact ⟨h.next_eq, fun p hp ↦ h.ids_eq p (hperm.mem_iff.mpr (mem_cons_of_mem _ hp))⟩

theorem IdsCount.storageAdd (hmap : WellKept t.handlers) (h : t.IdsCount)
    (hnotifier : t.notifier = true) (e : CancelHandler)
    (hfresh : t.handlers.get t.nextHandlerId = none) : (t.storageAdd e .enough).2.IdsCount := by
  refine ⟨fun _ ↦ ?_, fun p hp ↦ ?_⟩
  · change (t.nextHandlerId + 1) % sizeRange = (t.accepted ++ [e]).length % sizeRange
    rw [h.next_eq hnotifier, Nat.mod_add_mod, length_append, length_singleton]
  · have hperm := HashMap.entries_insert_perm (v := ⟨t.accepted.length, e⟩) hmap.capacity_pos hfresh
    obtain rfl | hp := mem_cons.mp (hperm.mem_iff.mp hp)
    · exact h.next_eq hnotifier
    · exact h.ids_eq p hp

theorem IdsCount.step (hinv : t.Inv) (h : t.IdsCount) {op : TokenOp} (hsane : t.Sane op) :
    (t.step op).IdsCount := by
  cases op with
  | add e memory =>
    obtain ⟨hnode, hfresh⟩ := hsane
    change (t.add e memory).2.IdsCount
    rw [add]
    split
    · next hnotifier =>
      cases memory with
      | enough => exact h.storageAdd hinv.wellKept hnotifier e hfresh
      | noHandler => exact h
      | noEntry => exact h.remove hinv.wellKept _
      | noListNode => exact absurd rfl hnode
    · exact h
  | remove id => exact h.remove hinv.wellKept id
  | cancel =>
    exact ⟨fun hon ↦ absurd hon Bool.false_ne_true, fun _ hp ↦ absurd hp not_mem_nil⟩

theorem Run.idsCount (hrun : create.Run t) : t.IdsCount := by
  induction hrun with
  | refl => exact ⟨fun _ ↦ rfl, fun _ hp ↦ absurd hp not_mem_nil⟩
  | step hrun op hsane ih => exact ih.step (hrun.inv inv_create) hsane

/-- As long as fewer handlers were accepted than there are ids, the next id is free. -/
theorem Run.get_nextHandlerId (hrun : create.Run t) (hnotifier : t.notifier = true)
    (hfew : t.accepted.length < sizeRange) : t.handlers.get t.nextHandlerId = none := by
  have hinv := hrun.inv inv_create
  cases hget : t.handlers.get t.nextHandlerId with
  | none => rfl
  | some e =>
    have hentry := (HashMap.entries_perm_remove hinv.wellKept.capacity_pos hget).mem_iff.mpr
      mem_cons_self
    have hid := hrun.idsCount.ids_eq _ hentry
    have hnumber := (List.getElem?_eq_some_iff.mp
      (hinv.numbered e (mem_map_of_mem hentry))).1
    rw [hrun.idsCount.next_eq hnotifier, Nat.mod_eq_of_lt hfew,
      Nat.mod_eq_of_lt (hnumber.trans hfew)] at hid
    exact absurd hid.symm hnumber.ne

/-! ### Every run -/

/-- What a token promises about its handlers -/
structure Sound (t : CancellationToken) : Prop where
  ids_distinct : (t.handlers.entries.map Prod.fst).Nodup
  numbers_distinct : t.numbers.Nodup
  called_once : ∀ n, t.log.count (.called n) ≤ 1
  /-- A handler that is registered was neither called nor dropped. -/
  registered_untouched : ∀ e ∈ t.registered, t.accepted[e.number]? = some e.handler ∧
    t.log.count (.called e.number) = 0 ∧ t.log.count (.dropped e.number) = 0
  /-- One that is registered no more was dropped once. -/
  dropped_once : ∀ n e, t.accepted[n]? = some e → n ∉ t.numbers →
    t.log.count (.dropped n) = if e.onDrop then 1 else 0
  /-- It is neither called nor dropped again, whatever follows. -/
  gone : ∀ n, n < t.accepted.length → n ∉ t.numbers → ∀ t', t.Run t' → t.Gone n t'
  add_accepted : t.notifier = true → t.handlers.get t.nextHandlerId = none → ∀ h,
    (t.add h .enough).1 = .ok t.nextHandlerId ∧ (t.add h .enough).2.handlers.entries.Perm
        ((t.nextHandlerId, ⟨t.accepted.length, h⟩) :: t.handlers.entries) ∧
      (t.add h .enough).2.accepted = t.accepted ++ [h] ∧ (t.add h .enough).2.log = t.log
  /-- Below the range of a `size_t`, the next id is not in use. -/
  next_free : t.notifier = true → t.accepted.length < sizeRange →
    t.handlers.get t.nextHandlerId = none
  /-- A registration on a cancelled token fails and retains nothing. -/
  add_cancelled : t.notifier = false → ∀ h memory, t.add h memory = (.cancelled, t)
  remove_present : ∀ id e, t.handlers.get id = some e →
    t.handlers.entries.Perm ((id, e) :: (t.remove id).handlers.entries) ∧
      (t.remove id).log = t.log ++ e.drop
  remove_stale : ∀ id, t.handlers.get id = none → t.remove id = t
  /-- The first cancel calls a handler if and only if none of those before it failed. -/
  cancel_calls : t.notifier = true → ∀ before e after, t.registered = before ++ e :: after →
    t.cancel.log.count (.called e.number) =
      if e.handler.onCancel.isSome ∧ ∀ b ∈ before, b.succeeds then 1 else 0
  cancel_empties : t.cancel.registered = [] ∧ t.cancel.notifier = false
  cancel_again : t.notifier = false → t.cancel.log = t.log ∧ t.registered = []
  clear_drops : ∀ n e, t.accepted[n]? = some e →
    t.clear.log.count (.dropped n) = if e.onDrop then 1 else 0
  clear_calls : ∀ n, t.clear.log.count (.called n) = t.log.count (.called n)

theorem Inv.cancel_calls (h : t.Inv) (hnotifier : t.notifier = true)
    (hsplit : t.registered = before ++ e :: after) : t.cancel.log.count (.called e.number) =
      if e.handler.onCancel.isSome ∧ ∀ b ∈ before, b.succeeds then 1 else 0 := by
  have honce := nodup_iff_count_le_one.mp h.nodup_numbers e.number
  rw [numbers, hsplit] at honce
  rw [count_log_cancel, if_pos hnotifier, h.uncalled hnotifier, Nat.zero_add, hsplit,
    count_called_storageCancel honce]

theorem Inv.add_accepted (hinv : t.Inv) (hnotifier : t.notifier = true)
    (hfresh : t.handlers.get t.nextHandlerId = none) (h : CancelHandler) :
    (t.add h .enough).1 = .ok t.nextHandlerId ∧ (t.add h .enough).2.handlers.entries.Perm
        ((t.nextHandlerId, ⟨t.accepted.length, h⟩) :: t.handlers.entries) ∧
      (t.add h .enough).2.accepted = t.accepted ++ [h] ∧ (t.add h .enough).2.log = t.log := by
  rw [add, if_pos hnotifier]
  exact ⟨rfl, HashMap.entries_insert_perm hinv.wellKept.capacity_pos hfresh, rfl,
    log_storageAdd h hfresh⟩

theorem Inv.remove_present (h : t.Inv) (hget : t.handlers.get id = some e) :
    t.handlers.entries.Perm ((id, e) :: (t.remove id).handlers.entries) ∧
      (t.remove id).log = t.log ++ e.drop := by
  exact ⟨HashMap.entries_perm_remove h.wellKept.capacity_pos hget, log_remove hget⟩

theorem Inv.cancel_again (h : t.Inv) (hnotifier : t.notifier = false) :
    t.cancel.log = t.log ∧ t.registered = [] := by
  refine ⟨if_neg (ne_true_of_eq_false hnotifier), ?_⟩
  rw [registered, h.cancelled hnotifier]
  rfl

theorem Inv.clear_drops (h : t.Inv) {n : ℕ} {e : CancelHandler} (he : t.accepted[n]? = some e) :
    t.clear.log.count (.dropped n) = if e.onDrop then 1 else 0 := by
  have heq := h.dropped_eq n
  rw [he, any_some, ← count_append] at heq
  exact heq

theorem clear_calls (n : ℕ) : t.clear.log.count (.called n) = t.log.count (.called n) := by
  change (t.log ++ clearHandlers t.registered).count _ = _
  rw [count_append, count_called_clearHandlers, Nat.add_zero]

/-- In every run whose registrations have the memory for their list node and get an id that is not
in use, the token keeps its promises. -/
theorem cancellationToken_sound {t : CancellationToken} (hrun : create.Run t) : t.Sound where
  ids_distinct :=
    HashMap.nodup_keys (hrun.inv inv_create).wellKept.unrepeated
      (hrun.inv inv_create).wellKept.placed
  numbers_distinct := (hrun.inv inv_create).nodup_numbers
  called_once n := by
    have hle := (hrun.inv inv_create).called_le n
    split_ifs at hle <;> omega
  registered_untouched e he :=
    ⟨(hrun.inv inv_create).numbered e he, (hrun.inv inv_create).uncalled_of_mem he,
      (hrun.inv inv_create).undropped_of_mem he⟩
  dropped_once _ _ he hn := (hrun.inv inv_create).dropped_of_not_mem he hn
  gone _ haccepted hn _ hlater := hlater.gone (hrun.inv inv_create) haccepted hn
  add_accepted hnotifier hfresh h := (hrun.inv inv_create).add_accepted hnotifier hfresh h
  next_free hnotifier hfew := hrun.get_nextHandlerId hnotifier hfew
  add_cancelled hnotifier _ _ := by rw [add, if_neg (ne_true_of_eq_false hnotifier)]
  remove_present _ _ hget := (hrun.inv inv_create).remove_present hget
  remove_stale _ hget := remove_of_absent hget
  cancel_calls hnotifier _ _ _ hsplit := (hrun.inv inv_create).cancel_calls hnotifier hsplit
  cancel_empties := ⟨rfl, rfl⟩
  cancel_again hnotifier := (hrun.inv inv_create).cancel_again hnotifier
  clear_drops _ _ he := (hrun.inv inv_create).clear_drops he
  clear_calls n := clear_calls n

/-- Three handlers are registered, the second one is removed, and the token is cancelled: the first
one fails, so that the third one is not called. -/
def cancelledToken : CancellationToken :=
  ((((create.step (.add ⟨some false, true⟩ .enough)).step (.add ⟨some true, true⟩ .enough)).step
    (.add ⟨some true, true⟩ .enough)).step (.remove 1)).step .cancel

theorem cancellationToken_sound_add : cancelledToken.Sound ∧
    cancelledToken.log = [.dropped 1, .called 0, .dropped 0, .dropped 2] := by
  have hadd {t : CancellationToken} (h : create.Run t) (handler : CancelHandler)
      (hfresh : t.handlers.get t.nextHandlerId = none) :
      create.Run (t.step (.add handler .enough)) :=
    .step h _ ⟨by decide, hfresh⟩
  have hadded := hadd (hadd (hadd .refl ⟨some false, true⟩ rfl) ⟨some true, true⟩ rfl)
    ⟨some true, true⟩ rfl
  exact ⟨cancellationToken_sound (.step (.step hadded (.remove 1) trivial) .cancel trivial),
    by decide⟩

/-- Where there is no memory for the list node, the handler is accepted and never dropped. -/
theorem not_sound_noListNode : ¬ (create.step (.add ⟨some true, true⟩ .noListNode)).Sound :=
  fun h ↦ absurd (h.clear_drops 0 ⟨some true, true⟩ rfl) (by decide)

end CancellationToken

end ZenohPico.Session
