import ZenohPico.Runtime.Reclaim

/-!
The order in which sleeping tasks are woken up (`src/runtime/executor.c`,
`collections/static_pqueue_template.h`). The queue compares wake-up times that stand in the slots
of the tasks, and cancelling a task sets the one in its slot to 0. No task that is in the queue
already is hidden by that. A task that goes to sleep later is sifted up to the first task that is
no later, and where this is a cancelled one, there may be later tasks above it: the queue then
examines these first. `Executor.Reached.timely` is about the runs in which this does not happen.
-/

open List Option

namespace ZenohPico.Runtime

open Foundations

namespace Executor

variable {cfg : ExecutorConfig} {ex ex' : Executor} {idx : ℕ}

/-! ### The order of the queue -/

/-- The task in a slot sleeps and is not cancelled. One that is called has left the queue, whatever
its slot says. -/
def Asleep (ex : Executor) (idx : ℕ) : Prop :=
  (ex.tasks.schedule idx).status = .sleeping ∧ ex.tasks.hasFn idx = true ∧ ex.executing ≠ some idx

/-- The tasks that sleep are in the queue, and those of the queue that are not cancelled are under
no later ones. -/
structure InOrder (cfg : ExecutorConfig) (ex : Executor) : Prop where
  pool : ex.tasks.Inv cfg.maxTasks
  apart : ex.tasks.Apart ex.places
  asleep : ∀ idx, ex.Asleep idx → idx ∈ ex.sleepingTasks
  ordered : ∀ idx ∈ ex.sleepingTasks, ex.tasks.hasFn idx = true →
    PathBound ex.tasks.wakeUp (ex.tasks.wakeUp idx) ex.sleepingTasks idx

theorem new_inOrder (cfg : ExecutorConfig) : (new cfg).InOrder cfg where
  pool := FutPool.new_inv cfg.maxTasks
  apart := ⟨nodup_nil, fun idx hidx ↦ absurd hidx not_mem_nil⟩
  asleep idx h := by cases h.1
  ordered idx hidx := absurd hidx not_mem_nil

theorem schedule_congr {pool pool' : FutPool} (h : pool'.slots idx = pool.slots idx) :
    pool'.schedule idx = pool.schedule idx := by rw [FutPool.schedule, h, FutPool.schedule]

theorem Asleep.congr (h : ex'.Asleep idx) (hslots : ex'.tasks.slots idx = ex.tasks.slots idx)
    (hexecuting : ex.executing ≠ some idx) : ex.Asleep idx := by
  rw [Asleep, schedule_congr hslots, FutPool.hasFn_congr hslots] at h
  exact ⟨h.1, h.2.1, hexecuting⟩

theorem InOrder.nodup (h : ex.InOrder cfg) : ex.sleepingTasks.Nodup := by
  have hnodup := h.apart.nodup
  rw [places, append_assoc] at hnodup
  exact (nodup_append.mp (nodup_append.mp hnodup).2.1).1

theorem ne_executing (hidle : ex.executing = none) (i : ℕ) : ex.executing ≠ some i := by
  rw [hidle]
  exact (some_ne_none i).symm

theorem not_mem_sleeping (hidx : idx ∉ ex.places) : idx ∉ ex.sleepingTasks := fun hmem ↦
  hidx (mem_append_left _ (mem_append_right _ hmem))

/-- A call that leaves the queue alone, and lets no other task sleep -/
theorem InOrder.of_eases (h : ex.InOrder cfg) (hpool : ex'.tasks.Inv cfg.maxTasks)
    (hapart : ex'.tasks.Apart ex'.places) (hsleeping : ex'.sleepingTasks = ex.sleepingTasks)
    (heases : ∀ i ∈ ex.sleepingTasks, ex.tasks.Eases ex'.tasks i)
    (hasleep : ∀ i, ex'.Asleep i → ex.Asleep i) : ex'.InOrder cfg where
  pool := hpool
  apart := hapart
  asleep i hi := hsleeping ▸ h.asleep i (hasleep i hi)
  ordered i hi hfn := by
    rw [hsleeping] at hi ⊢
    rcases heases i hi with hsame | ⟨hcancelled, -⟩
    · have hpath := (h.ordered i hi ((FutPool.hasFn_congr hsame).symm.trans hfn)).mono
        fun i' hi' ↦ (heases i' hi').wakeUp_le
      rwa [← FutPool.wakeUp_congr hsame] at hpath
    · rw [hcancelled] at hfn
      cases hfn

variable {slot : FutSlot} {now time wakeUpTime : ℕ}

/-- A task that has a slot and no place joins the deque. -/
theorem InOrder.pushReady (h : ex.InOrder cfg) (hidx : idx ∉ ex.places)
    (hslot : ex.tasks.slots idx = some slot) (hstatus : slot.data.schedule.status ≠ .suspended) :
    (ex.pushReady cfg idx).InOrder cfg := by
  have hapart := h.apart.cons hidx hslot hstatus
  rw [pushReady_eq h.pool hapart]
  exact h.of_eases h.pool (hapart.perm (places_pushReady ex idx)) rfl (fun _ _ ↦ .inl rfl)
    fun _ hasleep ↦ hasleep

/-! ### The condition -/

/-- The condition on a call. The id of a new task is not that of a task that is ready, asleep or
being executed. Where a task goes to sleep, no task on its way to the root of the queue that is no
later stands under one that is later. -/
def Orderly (cfg : ExecutorConfig) (ex : Executor) : Op → Prop
  | .spawn _ => ∀ idx, ex.tasks.getIter cfg.maxTasks ex.spawnId = some idx → idx ∉ ex.places
  | .finish _ (.sleeping wakeUpTime) => ∀ idx, ex.executing = some idx →
      ex.tasks.hasFn idx = true →
        ClearAbove ex.tasks.wakeUp (FutSchedule.sleeping wakeUpTime).wakeUpTimeMs ex.sleepingTasks
          ex.sleepingTasks.length
  | .cancel _ | .resume _ | .spin _ => True
  | .finish _ .running | .finish _ .ready | .finish _ .suspended => True

/-! ### The calls -/

theorem schedule_of_slots {pool : FutPool} (h : pool.slots idx = some slot) :
    pool.schedule idx = slot.data.schedule := by rw [FutPool.schedule, h]

theorem InOrder.spawn (h : ex.InOrder cfg) (hasFn : Bool)
    (hid : ∀ idx, ex.tasks.getIter cfg.maxTasks ex.spawnId = some idx → idx ∉ ex.places) :
    (ex.spawn cfg hasFn).1.InOrder cfg := by
  -- the slot of the new task is written where it had no place, and then gets one
  have hplace : ∀ {tasks : FutPool} {idx : ℕ} {slot : FutSlot} {nextFutId : ℕ},
      tasks.Inv cfg.maxTasks → idx ∉ ex.places → tasks.slots idx = some slot →
      slot.data.schedule = .running → (∀ i ≠ idx, tasks.slots i = ex.tasks.slots i) →
      ({ ex with tasks, nextFutId }.pushReady cfg idx).InOrder cfg := by
    intro tasks idx slot nextFutId hpool hidx hslot hrunning hothers
    have hsame : ∀ i ∈ ex.places, tasks.slots i = ex.tasks.slots i := fun i hi ↦
      hothers i (ne_of_mem_of_not_mem hi hidx)
    have hbefore : { ex with tasks, nextFutId }.InOrder cfg := by
      refine h.of_eases hpool (h.apart.congr hsame) rfl (fun i hi ↦ .inl ?_) fun i hi ↦ ?_
      · exact hothers i (ne_of_mem_of_not_mem hi (not_mem_sleeping hidx))
      · have hne : i ≠ idx := by
          rintro rfl
          rw [Asleep, schedule_of_slots hslot, hrunning] at hi
          cases hi.1
        exact hi.congr (hothers i hne) hi.2.2
    exact hbefore.pushReady hidx hslot (hrunning ▸ FutSchedule.running_ne_suspended)
  rw [Executor.spawn]
  cases hiter : ex.tasks.getIter cfg.maxTasks ex.spawnId with
  | some idx =>
    obtain ⟨slot, hslot, -⟩ := FutPool.getIter_some hiter
    have hinsert : ex.tasks.insert cfg.maxTasks ex.spawnId ⟨hasFn, .running⟩ =
        (ex.tasks.write idx fun _ ↦ ⟨hasFn, .running⟩, some idx) := by
      rw [FutPool.insert, hiter]
    rw [hinsert]
    exact hplace (h.pool.write idx _) (hid idx hiter)
      (by rw [FutPool.write_slots_self, hslot]; rfl) rfl
      fun _ ↦ FutPool.write_slots_of_ne ex.tasks _
  | none =>
    rcases h.pool.insert ex.spawnId_ne_zero hiter ⟨hasFn, .running⟩ with
      hfull | ⟨idx, free, hnone, hinsert, hpool⟩
    · rw [hfull]
      exact h.of_eases h.pool h.apart rfl (fun _ _ ↦ .inl rfl) fun _ hasleep ↦ hasleep
    · rw [hinsert]
      exact hplace hpool (h.apart.not_mem hnone) (Function.update_self ..) rfl
        fun _ hne ↦ Function.update_of_ne hne ..

theorem InOrder.cancelFut (h : ex.InOrder cfg) (id : ℕ) : (ex.cancelFut cfg id).1.InOrder cfg := by
  rw [Executor.cancelFut]
  split
  · exact h
  split
  · exact h
  · next idx _ =>
    refine h.of_eases (h.pool.write idx _)
      (h.apart.write idx fun _ _ ↦ FutSchedule.ready_ne_suspended) rfl
      (fun i _ ↦ ex.tasks.eases_destroy idx i) fun i hi ↦ ?_
    rcases ex.tasks.eases_destroy idx i with hsame | ⟨hcancelled, -⟩
    · exact hi.congr hsame hi.2.2
    · have hfn : (ex.tasks.write idx FutData.destroy).hasFn i = true := hi.2.1
      rw [hcancelled] at hfn
      cases hfn

theorem schedule_reschedule (h : ex.tasks.slots idx = some slot) (schedule : FutSchedule) :
    (ex.tasks.write idx (FutData.reschedule schedule)).schedule idx = schedule := by
  rw [FutPool.schedule, FutPool.write_slots_self, h]
  rfl

variable {schedule : FutSchedule}

/-- The schedule of a task that has no place is written, and the task does not sleep. -/
theorem InOrder.reschedule (h : ex.InOrder cfg) (hidx : idx ∉ ex.places)
    (hslot : ex.tasks.slots idx = some slot) (hawake : schedule.status ≠ .sleeping) :
    (ex.write idx (FutData.reschedule schedule)).InOrder cfg := by
  refine h.of_eases (h.pool.write idx _) (h.apart.congr fun i hi ↦ ?_) rfl (fun i hi ↦ ?_)
    fun i hi ↦ ?_
  · exact FutPool.write_slots_of_ne ex.tasks _ (ne_of_mem_of_not_mem hi hidx)
  · exact ex.tasks.eases_write_of_ne _ (ne_of_mem_of_not_mem hi (not_mem_sleeping hidx))
  · by_cases heq : i = idx
    · subst heq
      exact absurd ((congrArg _ (schedule_reschedule hslot schedule)).symm.trans hi.1) hawake
    · exact hi.congr (FutPool.write_slots_of_ne ex.tasks _ heq) hi.2.2

theorem InOrder.resumeSuspendedFut (h : ex.InOrder cfg) (id : ℕ) :
    (ex.resumeSuspendedFut cfg id).1.InOrder cfg := by
  rw [Executor.resumeSuspendedFut]
  split
  · exact h
  split
  · exact h
  · next idx hidx =>
    split
    · exact h
    · next hsuspended =>
      obtain ⟨slot, hslot, -⟩ := FutPool.getIter_some hidx
      have hnot : idx ∉ ex.places := by
        intro hmem
        obtain ⟨slot', hslot', hstatus⟩ := h.apart.occupied idx hmem
        exact hsuspended (schedule_of_slots hslot' ▸ hstatus)
      exact (h.reschedule hnot hslot FutStatus.noConfusion).pushReady hnot
        (by rw [write, FutPool.write_slots_self, hslot]; rfl) FutSchedule.ready_ne_suspended

/-- The root leaves the queue, and does not sleep any more. -/
theorem InOrder.pop (h : ex.InOrder cfg) (hidle : ex.executing = none) {due : ℕ}
    (hpop : heapPop ex.tasks.wakeUp ex.sleepingTasks = some (due, ex'.sleepingTasks))
    (hpool : ex'.tasks.Inv cfg.maxTasks) (hapart : ex'.tasks.Apart ex'.places)
    (hslots : ∀ i ≠ due, ex'.tasks.slots i = ex.tasks.slots i) (hdue : ¬ ex'.Asleep due) :
    ex'.InOrder cfg := by
  have hperm := (heapPop_perm hpop).2
  have hnot : due ∉ ex'.sleepingTasks :=
    (nodup_cons.mp (hperm.nodup_iff.mpr h.nodup)).1
  have hothers : ∀ i ∈ ex'.sleepingTasks, ex'.tasks.slots i = ex.tasks.slots i := fun i hi ↦
    hslots i (ne_of_mem_of_not_mem hi hnot)
  refine ⟨hpool, hapart, fun i hi ↦ ?_, fun i hi hfn ↦ ?_⟩
  · have hne : i ≠ due := fun heq ↦ hdue (heq ▸ hi)
    have hbefore : ex.Asleep i := hi.congr (hslots i hne) (ne_executing hidle i)
    exact (mem_cons.mp (hperm.mem_iff.mpr (h.asleep i hbefore))).resolve_left hne
  · have hbefore := h.ordered i (hperm.mem_iff.mp (mem_cons_of_mem due hi))
      ((FutPool.hasFn_congr (hothers i hi)).symm.trans hfn)
    rw [FutPool.wakeUp_congr (hothers i hi)]
    exact (hbefore.pop hpop (ne_of_mem_of_not_mem hi hnot)).mono fun i' hi' ↦
      (FutPool.wakeUp_congr (hothers i' hi')).le

theorem InOrder.getNextFut (h : ex.InOrder cfg) (hidle : ex.executing = none) {after : Executor}
    {status : ExecutorStatus} (hnext : ex.getNextFut cfg now = (after, status, some idx)) :
    after.executing = none ∧ { after with executing := some idx }.InOrder cfg := by
  have hplaces : ex.places = ex.readyTasks ++ ex.sleepingTasks := by
    rw [places, hidle, toList_none, append_nil]
  rcases getNextFut_some hnext with ⟨rest, hready, rfl, -⟩ | ⟨hready, sleeping, hpop, rfl⟩ |
    ⟨rest, due, sleeping, hready, hpop, rfl⟩
  · refine ⟨hidle, h.of_eases h.pool (h.apart.perm ?_) rfl (fun _ _ ↦ .inl rfl) fun i hi ↦ ?_⟩
    · rw [hplaces, hready]
      exact perm_append_singleton idx _
    · exact hi.congr rfl (ne_executing hidle i)
  · refine ⟨hidle, h.pop hidle hpop h.pool (h.apart.perm ?_) (fun _ _ ↦ rfl) fun hdue ↦ ?_⟩
    · rw [hplaces, hready]
      exact (perm_append_singleton idx _).trans (heapPop_perm hpop).2
    · exact hdue.2.2 rfl
  · -- the task that is due goes behind the others of the deque, and is ready
    have hmoved := places_moved hidle hready hpop
    have hlen := (h.apart.perm hmoved).length_le h.pool
    rw [places, length_cons, length_append, length_append] at hlen
    rw [pushReady_of_lt (by dsimp only at hlen ⊢; omega)]
    have hdue : due ∈ ex.places := hmoved.mem_iff.mp mem_cons_self
    obtain ⟨slot, hslot, -⟩ := h.apart.occupied due hdue
    refine ⟨hidle, h.pop hidle hpop (h.pool.write due _) ?_
      (fun _ ↦ FutPool.write_slots_of_ne ex.tasks _) fun hasleep ↦ ?_⟩
    · have hplaced := places_pushReady
        { ex with sleepingTasks := sleeping, readyTasks := rest, executing := some idx } due
      exact (h.apart.write due fun _ _ ↦ FutSchedule.ready_ne_suspended).perm (hplaced.trans hmoved)
    · exact FutStatus.noConfusion
        ((congrArg _ (schedule_reschedule hslot .ready)).symm.trans hasleep.1)

theorem InOrder.removeAt (hidle : ex.executing = none)
    (h : { ex with executing := some idx }.InOrder cfg) :
    { ex with tasks := ex.tasks.removeAt idx }.InOrder cfg := by
  have hapart : ex.tasks.Apart (idx :: (ex.readyTasks ++ ex.sleepingTasks)) :=
    h.apart.perm (perm_append_singleton idx _).symm
  obtain ⟨slot, hslot, -⟩ := hapart.occupied idx mem_cons_self
  refine h.of_eases (h.pool.removeAt hslot) ?_ rfl (fun i hi ↦ .inl ?_) fun i hi ↦ ?_
  · rw [places, hidle, toList_none, append_nil]
    exact hapart.leave fun _ ↦ FutPool.removeAt_slots_of_ne ex.tasks
  · exact FutPool.removeAt_slots_of_ne ex.tasks
      (ne_of_mem_of_not_mem (mem_append_right _ hi) hapart.tail.1)
  · have hne : i ≠ idx := by
      rintro rfl
      have hfn : (ex.tasks.removeAt i).hasFn i = true := hi.2.1
      rw [FutPool.hasFn, FutPool.removeAt_slots_self] at hfn
      cases hfn
    exact hi.congr (FutPool.removeAt_slots_of_ne ex.tasks hne) fun heq ↦
      hne (some.inj heq).symm

theorem InOrder.not_suspended (h : { ex with executing := some idx }.InOrder cfg) :
    (ex.tasks.schedule idx).status ≠ .suspended := by
  have hmem : idx ∈ { ex with executing := some idx }.places := by simp [places]
  obtain ⟨slot, hslot, hstatus⟩ := h.apart.occupied idx hmem
  exact schedule_of_slots hslot ▸ hstatus

theorem InOrder.spin (h : ex.InOrder cfg) (hidle : ex.executing = none) (now : ℕ) :
    (ex.spin cfg now).1.InOrder cfg :=
  spin_kept (fun h hidle _ _ _ hnext ↦ h.getNextFut hidle hnext) (fun hidle h ↦ h.removeAt hidle)
    InOrder.not_suspended hidle h

/-- A task that returns has no place any more. -/
theorem InOrder.executing_apart (h : ex.InOrder cfg) (hexecuting : ex.executing = some idx) :
    ex.tasks.Apart (idx :: { ex with executing := none }.places) := by
  refine h.apart.perm ?_
  rw [places, places, hexecuting, toList_none, append_nil]
  exact (perm_append_singleton idx _).symm

/-- What a task returns is written to its slot, which gets another place or none. -/
theorem InOrder.returned (h : ex.InOrder cfg) (hexecuting : ex.executing = some idx)
    (hawake : schedule.status ≠ .sleeping) :
    ({ ex with executing := none }.write idx (FutData.reschedule schedule)).InOrder cfg := by
  have hapart := h.executing_apart hexecuting
  obtain ⟨slot, hslot, -⟩ := hapart.occupied idx mem_cons_self
  have hnot := not_mem_sleeping hapart.tail.1
  refine h.of_eases (h.pool.write idx _)
    (hapart.leave fun _ ↦ FutPool.write_slots_of_ne ex.tasks _) rfl (fun i hi ↦ ?_) fun i hi ↦ ?_
  · exact ex.tasks.eases_write_of_ne _ (ne_of_mem_of_not_mem hi hnot)
  · have hne : i ≠ idx := by
      rintro rfl
      exact hawake ((congrArg _ (schedule_reschedule hslot schedule)).symm.trans hi.1)
    exact hi.congr (FutPool.write_slots_of_ne ex.tasks _ hne) fun heq ↦
      hne (some.inj (heq.symm.trans hexecuting))

/-- A task goes to sleep: the queue stays in order exactly if nothing hides a later task on the way
of the task, unless it was cancelled. -/
theorem InOrder.pushSleeping_iff (h : ex.InOrder cfg) (hexecuting : ex.executing = some idx)
    (wakeUpTime : ℕ) : (({ ex with executing := none }.write idx
      (FutData.reschedule (.sleeping wakeUpTime))).pushSleeping cfg idx).InOrder cfg ↔
      (ex.tasks.hasFn idx = true →
        ClearAbove ex.tasks.wakeUp (FutSchedule.sleeping wakeUpTime).wakeUpTimeMs ex.sleepingTasks
          ex.sleepingTasks.length) := by
  let tasks := ex.tasks.write idx (FutData.reschedule (.sleeping wakeUpTime))
  have hapart := h.executing_apart hexecuting
  obtain ⟨slot, hslot, -⟩ := hapart.occupied idx mem_cons_self
  have hnot := not_mem_sleeping hapart.tail.1
  change idx ∉ ex.sleepingTasks at hnot
  have hpool : tasks.Inv cfg.maxTasks := h.pool.write idx _
  have hwritten : tasks.Apart (idx :: { ex with executing := none }.places) :=
    hapart.write idx fun _ _ ↦ FutSchedule.sleeping_ne_suspended wakeUpTime
  have hothers : ∀ i ≠ idx, tasks.slots i = ex.tasks.slots i := fun _ ↦
    FutPool.write_slots_of_ne ex.tasks _
  have hkeys : ∀ i ∈ ex.sleepingTasks, tasks.wakeUp i = ex.tasks.wakeUp i := fun i hi ↦
    FutPool.wakeUp_congr (hothers i (ne_of_mem_of_not_mem hi hnot))
  have hkey : tasks.wakeUp idx = (FutSchedule.sleeping wakeUpTime).wakeUpTimeMs :=
    congrArg _ (schedule_reschedule hslot _)
  have hfn : tasks.hasFn idx = ex.tasks.hasFn idx := hasFn_reschedule ..
  have hclear : ClearAbove tasks.wakeUp (tasks.wakeUp idx) ex.sleepingTasks
      ex.sleepingTasks.length ↔ ClearAbove ex.tasks.wakeUp
        (FutSchedule.sleeping wakeUpTime).wakeUpTimeMs ex.sleepingTasks
          ex.sleepingTasks.length := by
    rw [hkey]
    exact ⟨fun hclear ↦ hclear.congr fun i hi ↦ (hkeys i hi).symm, fun hclear ↦ hclear.congr hkeys⟩
  have hperm := heapPush_perm tasks.wakeUp ex.sleepingTasks idx
  rw [pushSleeping_eq hpool hwritten, ← hclear,
    ← heapPush_pathBound_iff (nodup_cons.mpr ⟨hnot, h.nodup⟩), ← hfn]
  refine ⟨fun hafter ↦ hafter.ordered idx (hperm.mem_iff.mpr mem_cons_self), fun hpath ↦
    ⟨hpool, hwritten.perm (places_pushSleeping _ idx), fun i hi ↦ ?_, fun i hi hlive ↦ ?_⟩⟩
  · refine hperm.mem_iff.mpr (mem_cons.mpr (or_iff_not_imp_left.mpr fun hne ↦ ?_))
    exact h.asleep i (hi.congr (hothers i hne) fun heq ↦
      hne (some.inj (heq.symm.trans hexecuting)))
  · rcases mem_cons.mp (hperm.mem_iff.mp hi) with rfl | hmem
    · exact hpath hlive
    · have hsame := hothers i (ne_of_mem_of_not_mem hmem hnot)
      have hbefore := h.ordered i hmem ((FutPool.hasFn_congr hsame).symm.trans hlive)
      have hafter := hbefore.mono fun i' hi' ↦ (hkeys i' hi').le
      rw [← hkeys i hmem] at hafter
      exact hafter.push idx

theorem InOrder.finish (h : ex.InOrder cfg) {result : FutFnResult}
    (horderly : ex.Orderly cfg (.finish now result)) : (ex.finish cfg result).InOrder cfg := by
  rw [Executor.finish]
  split
  · exact h
  · next idx hexecuting =>
    have hapart := h.executing_apart hexecuting
    obtain ⟨slot, hslot, -⟩ := hapart.occupied idx mem_cons_self
    cases result with
    | running =>
      exact (h.returned hexecuting FutStatus.noConfusion).pushReady hapart.tail.1
        (by rw [write, FutPool.write_slots_self, hslot]; rfl) FutSchedule.running_ne_suspended
    | ready =>
      have hexec : { { ex with executing := none } with executing := some idx } = ex := by
        rw [← hexecuting]
      exact InOrder.removeAt rfl (hexec ▸ h)
    | sleeping wakeUpTime =>
      exact (h.pushSleeping_iff hexecuting wakeUpTime).mpr (horderly idx hexecuting)
    | suspended => exact h.returned hexecuting FutStatus.noConfusion

theorem InOrder.step (h : ex.InOrder cfg) {op : Op} (hop : ex.WellFormed op)
    (horderly : ex.Orderly cfg op) : (ex.step cfg op).InOrder cfg := by
  cases op with
  | spawn hasFn => exact h.spawn hasFn horderly
  | cancel id => exact h.cancelFut id
  | resume id => exact h.resumeSuspendedFut id
  | spin now => exact h.spin hop now
  | finish now result => exact h.finish horderly

theorem Reached.inOrder (h : Reached cfg (Orderly cfg) ex) : ex.InOrder cfg := by
  induction h with
  | new => exact new_inOrder cfg
  | step _ hop horderly ih => exact ih.step hop horderly

/-! ### Waiting -/

/-- What is reported where nothing can be done is the wake-up time of the task examined next. -/
theorem getStatus_shouldWait (h : ex.getStatus now = .shouldWait time) :
    ∃ root, ex.sleepingTasks.head? = some root ∧ ex.tasks.wakeUp root = time := by
  rw [getStatus] at h
  split at h
  · cases h
  · split at h
    · cases h
    · next root hroot =>
      split at h
      · cases h
      · exact ⟨root, hroot, ExecutorStatus.shouldWait.inj h⟩

theorem getNextFut_shouldWait {taken : Option ℕ}
    (h : ex.getNextFut cfg now = (ex', .shouldWait time, taken)) :
    taken = none ∧ ∃ root, ex.sleepingTasks.head? = some root ∧ ex.tasks.wakeUp root = time := by
  have hpopReady : ∀ {otherwise}, ex.popReady otherwise = (ex', .shouldWait time, taken) →
      taken = none ∧ otherwise = .shouldWait time := by
    intro otherwise hpop
    rw [popReady] at hpop
    split at hpop <;> cases hpop
    exact ⟨rfl, rfl⟩
  rw [getNextFut] at h
  split at h
  · cases (hpopReady h).2
  · next due sleeping hpop =>
    split at h
    · split at h <;> cases h
    · obtain ⟨rfl, htime⟩ := hpopReady h
      exact ⟨rfl, due, (heapPop_perm hpop).1, ExecutorStatus.shouldWait.inj htime⟩

theorem spin_shouldWait (h : (ex.spin cfg now).2 = .shouldWait time) :
    ∃ root, (ex.spin cfg now).1.sleepingTasks.head? = some root ∧
      (ex.spin cfg now).1.tasks.wakeUp root = time := by
  induction ex using spin.induct cfg now with
  | case1 ex after status hnext =>
    rw [spin_idle hnext] at h ⊢
    obtain rfl : status = .shouldWait time := h
    rw [(getNextFut_none hnext).1]
    exact (getNextFut_shouldWait hnext).2
  | case2 ex after status idx hnext hfn ih =>
    rw [spin_some hnext, if_pos hfn] at h ⊢
    exact ih h
  | case3 ex after status idx hnext hfn hstatus =>
    rw [spin_some hnext, if_neg hfn, if_pos hstatus] at h
    obtain rfl : status = .shouldWait time := h
    cases (getNextFut_shouldWait hnext).1
  | case4 ex after status idx hnext hfn hstatus ih =>
    rw [spin_some hnext, if_neg hfn, if_neg hstatus] at h ⊢
    exact ih h

/-- A task that is due leaves the queue. -/
theorem getNextFut_due {due : ℕ} {sleeping : List ℕ}
    (hpop : heapPop ex.tasks.wakeUp ex.sleepingTasks = some (due, sleeping))
    (hdue : ex.tasks.wakeUp due < now) : (ex.getNextFut cfg now).1.sleepingTasks = sleeping := by
  rw [getNextFut, hpop]
  dsimp only
  rw [if_pos hdue]
  split
  · rfl
  · rw [pushReady]
    split <;> rfl

/-! ### Every state -/

/-- The task that is examined next is no later than any that sleeps; no report is later than any of
these, and where one of them is due, the one that is examined is due and leaves the queue. -/
structure Timely (cfg : ExecutorConfig) (ex : Executor) : Prop where
  least : ∀ idx, ex.Asleep idx → ∃ root, ex.sleepingTasks.head? = some root ∧
    ex.tasks.wakeUp root ≤ ex.tasks.wakeUp idx
  status : ∀ now time, ex.getStatus now = .shouldWait time →
    ∀ idx, ex.Asleep idx → time ≤ ex.tasks.wakeUp idx
  spin : ∀ now time, ex.executing = none → (ex.spin cfg now).2 = .shouldWait time →
    ∀ idx, (ex.spin cfg now).1.Asleep idx → time ≤ (ex.spin cfg now).1.tasks.wakeUp idx
  due : ∀ now idx, ex.Asleep idx → ex.tasks.wakeUp idx < now → ∃ root sleeping,
    heapPop ex.tasks.wakeUp ex.sleepingTasks = some (root, sleeping) ∧
      ex.tasks.wakeUp root < now ∧ (ex.getNextFut cfg now).1.sleepingTasks = sleeping

theorem InOrder.least (h : ex.InOrder cfg) (hasleep : ex.Asleep idx) :
    ∃ root, ex.sleepingTasks.head? = some root ∧ ex.tasks.wakeUp root ≤ ex.tasks.wakeUp idx := by
  have hmem := h.asleep idx hasleep
  obtain ⟨root, hroot⟩ : ∃ root, ex.sleepingTasks.head? = some root := by
    cases hsleeping : ex.sleepingTasks with
    | nil => rw [hsleeping] at hmem; exact absurd hmem not_mem_nil
    | cons root _ => exact ⟨root, rfl⟩
  exact ⟨root, hroot, (h.ordered idx hmem hasleep.2.1).root_le hroot⟩

theorem InOrder.le_of_root (h : ex.InOrder cfg)
    (htime : ∃ root, ex.sleepingTasks.head? = some root ∧ ex.tasks.wakeUp root = time)
    (hasleep : ex.Asleep idx) : time ≤ ex.tasks.wakeUp idx := by
  obtain ⟨root, hroot, rfl⟩ := htime
  obtain ⟨root', hroot', hle⟩ := h.least hasleep
  obtain rfl := some.inj (hroot.symm.trans hroot')
  exact hle

theorem InOrder.isTimely (h : ex.InOrder cfg) : ex.Timely cfg where
  least _ hasleep := h.least hasleep
  status _ _ hstatus _ hasleep := h.le_of_root (getStatus_shouldWait hstatus) hasleep
  spin now _ hidle hspin _ hasleep := (h.spin hidle now).le_of_root (spin_shouldWait hspin) hasleep
  due now idx hasleep hlate := by
    obtain ⟨root, hroot, hle⟩ := h.least hasleep
    obtain ⟨sleeping, hpop⟩ : ∃ sleeping,
      heapPop ex.tasks.wakeUp ex.sleepingTasks = some (root, sleeping) := heapPop_of_head hroot
    exact ⟨root, sleeping, hpop, hle.trans_lt hlate, getNextFut_due hpop (hle.trans_lt hlate)⟩

/-- In every state of a run whose calls meet the condition, the task that is examined next has the
least wake-up time. -/
theorem Reached.timely (h : Reached cfg (Orderly cfg) ex) : ex.Timely cfg := h.inOrder.isTimely

/-- The pool of a build with the default options, on a platform of 64 bits -/
def defaultPool : ExecutorConfig := ⟨64, 0x10000000000000000⟩

/-- A spin at a time at which nothing is due calls the first task of the deque. -/
theorem spin_ready {rest : List ℕ} (hready : ex.readyTasks = idx :: rest)
    (hfn : ex.tasks.hasFn idx = true) (hstatus : (ex.tasks.schedule idx).status ≠ .suspended) :
    (ex.spin cfg 0).1 = { ex with readyTasks := rest, executing := some idx } := by
  have hnext : ex.getNextFut cfg 0 =
      ({ ex with readyTasks := rest }, .readyToExecuteTask, some idx) := by
    rw [getNextFut]
    split
    · rw [popReady, hready]
    · rw [if_neg (Nat.not_lt_zero _), popReady, hready]
  have hlive : ¬ ex.tasks.hasFn idx = false := by
    rw [hfn]
    exact Bool.noConfusion
  rw [spin_some hnext, if_neg hlive, if_pos hstatus]

/-- The first task of the deque is called and goes to sleep. -/
def sleeps (ex : Executor) (wakeUpTime : ℕ) : Executor :=
  match ex.readyTasks with
  | [] => ex
  | idx :: rest =>
    { ex with readyTasks := rest, executing := some idx }.finish defaultPool (.sleeping wakeUpTime)

theorem Reached.sleeps {P : Executor → Op → Prop} (h : Reached defaultPool P ex) {rest : List ℕ}
    (hidle : ex.executing = none) (hready : ex.readyTasks = idx :: rest)
    (hfn : ex.tasks.hasFn idx = true) (hstatus : (ex.tasks.schedule idx).status ≠ .suspended)
    (wakeUpTime : ℕ) (hspin : P ex (.spin 0))
    (hfinish : P { ex with readyTasks := rest, executing := some idx }
      (.finish 0 (.sleeping wakeUpTime))) : Reached defaultPool P (ex.sleeps wakeUpTime) := by
  have hcalled : Reached defaultPool P { ex with readyTasks := rest, executing := some idx } := by
    rw [← spin_ready hready hfn hstatus]
    exact .step h (show ex.WellFormed (.spin 0) from hidle) hspin
  rw [Executor.sleeps, hready]
  have hreturns : { ex with readyTasks := rest, executing := some idx }.WellFormed
      (.finish 0 (.sleeping wakeUpTime)) := some_ne_none idx
  exact .step hcalled hreturns hfinish

/-- Four tasks were spawned. -/
def fourSpawned : Executor :=
  (new defaultPool).run defaultPool [.spawn true, .spawn true, .spawn true, .spawn true]

/-- Three of them sleep, until 10, 20 and 30. -/
def threeAsleep : Executor := ((fourSpawned.sleeps 10).sleeps 20).sleeps 30

/-- The second one is cancelled, and the fourth one goes to sleep. -/
def fourthSleeps (wakeUpTime : ℕ) : Executor :=
  (threeAsleep.step defaultPool (.cancel 2)).sleeps wakeUpTime

section Example

variable {P : Executor → Op → Prop}

theorem reached_fourSpawned
    (hspawn : ∀ ex : Executor, ex.tasks.getIter 64 ex.spawnId = none → P ex (.spawn true)) :
    Reached defaultPool P fourSpawned := by
  have hnext : ∀ {ex : Executor}, Reached defaultPool P ex → ex.tasks.getIter 64 ex.spawnId = none →
        Reached defaultPool P (ex.step defaultPool (.spawn true)) :=
    fun {ex} h hfresh ↦ .step h (show ex.WellFormed (.spawn true) from trivial) (hspawn ex hfresh)
  have hone := hnext .new (by decide +kernel)
  have htwo := hnext hone (by decide +kernel)
  have hthree := hnext htwo (by decide +kernel)
  exact hnext hthree (by decide +kernel)

theorem reached_fourthSleeps
    (hspawn : ∀ ex : Executor, ex.tasks.getIter 64 ex.spawnId = none → P ex (.spawn true))
    (hspin : ∀ ex, P ex (.spin 0)) (hcancel : ∀ ex, P ex (.cancel 2))
    (hsleep : ∀ (ex : Executor) (wakeUpTime : ℕ), wakeUpTime < wakeUpRange →
      (∀ idx ∈ ex.sleepingTasks, ex.tasks.wakeUp idx ≤ wakeUpTime) →
        P ex (.finish 0 (.sleeping wakeUpTime))) (hlast : P
      { threeAsleep.step defaultPool (.cancel 2) with readyTasks := [], executing := some 3 }
      (.finish 0 (.sleeping wakeUpTime))) : Reached defaultPool P (fourthSleeps wakeUpTime) := by
  have hfour := reached_fourSpawned hspawn
  have hfirst := hfour.sleeps (by decide +kernel)
    (show fourSpawned.readyTasks = [0, 1, 2, 3] by decide +kernel) (by decide +kernel)
    (by decide +kernel) 10 (hspin _) (hsleep _ 10 (by decide) (by decide +kernel))
  have hsecond := hfirst.sleeps (by decide +kernel)
    (show (fourSpawned.sleeps 10).readyTasks = [1, 2, 3] by decide +kernel) (by decide +kernel)
    (by decide +kernel) 20 (hspin _) (hsleep _ 20 (by decide) (by decide +kernel))
  have hthird := hsecond.sleeps (by decide +kernel)
    (show ((fourSpawned.sleeps 10).sleeps 20).readyTasks = [2, 3] by decide +kernel)
    (by decide +kernel) (by decide +kernel) 30 (hspin _)
    (hsleep _ 30 (by decide) (by decide +kernel))
  have hcancelled : Reached defaultPool P (threeAsleep.step defaultPool (.cancel 2)) :=
    .step hthird (show threeAsleep.WellFormed (.cancel 2) from trivial) (hcancel _)
  exact hcancelled.sleeps (by decide +kernel) (by decide +kernel)
    (by decide +kernel) (by decide +kernel) _ (hspin _) hlast

end Example

theorem orderly_sleeping (hrange : wakeUpTime < wakeUpRange)
    (hlatest : ∀ idx ∈ ex.sleepingTasks, ex.tasks.wakeUp idx ≤ wakeUpTime) :
    ex.Orderly cfg (.finish 0 (.sleeping wakeUpTime)) := by
  intro idx _ _ m _ _ n _ x y _ hy _
  refine (hlatest y (mem_of_getElem? hy)).trans_eq ?_
  exact (Nat.mod_eq_of_lt hrange).symm

/-- The task that goes to sleep is the last to be woken up. -/
theorem timely_fourthSleeps : (fourthSleeps 35).Timely defaultPool := by
  have hspawn : ∀ ex : Executor, ex.tasks.getIter 64 ex.spawnId = none →
      ex.Orderly defaultPool (.spawn true) := fun ex hfresh idx hidx ↦ by
    rw [show ex.tasks.getIter defaultPool.maxTasks ex.spawnId = none from hfresh] at hidx
    cases hidx
  exact (reached_fourthSleeps hspawn (fun _ ↦ trivial) (fun _ ↦ trivial)
    (fun _ _ hrange hlatest ↦ orderly_sleeping hrange hlatest)
    (orderly_sleeping (by decide) (by decide +kernel))).timely

/-- A task that sleeps until 10 is examined before the one that sleeps until 5, under which a task
was cancelled: at 7, the executor waits until 10. -/
theorem not_timely_fourthSleeps : ¬ ∀ cfg ex, Reached cfg (fun _ _ ↦ True) ex → ex.Timely cfg := by
  intro h
  have hreached : Reached defaultPool (fun _ _ ↦ True) (fourthSleeps 5) :=
    reached_fourthSleeps (fun _ _ ↦ trivial) (fun _ ↦ trivial) (fun _ ↦ trivial)
      (fun _ _ _ _ ↦ trivial) trivial
  have hasleep : (fourthSleeps 5).Asleep 3 := by
    refine ⟨?_, ?_, ?_⟩ <;> decide +kernel
  have hstatus : (fourthSleeps 5).getStatus 7 = .shouldWait 10 := by decide +kernel
  have hle := (h _ _ hreached).status 7 10 hstatus 3 hasleep
  have hwakeUp : (fourthSleeps 5).tasks.wakeUp 3 = 5 := by decide +kernel
  omega

end Executor

end ZenohPico.Runtime
