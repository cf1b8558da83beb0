import Mathlib.Data.List.Nodup
import Mathlib.Data.List.Perm.Subperm
import Mathlib.Logic.Function.Basic
import ZenohPico.Foundations.BinaryHeap

/-!
The executor (`src/runtime/executor.c`, `include/zenoh-pico/runtime/executor.h`): a fixed pool of
task slots, a deque of ready tasks and a queue of sleeping ones.

A slot that is occupied is in exactly one place (`Executor.Inv`): in the deque, in the queue, being
executed, or suspended with a handle that resumes it. This holds in every state that is reached
without cancelling a suspended task: the slot of such a task is in no place, and nothing finds it
again.
-/

open List Option

namespace ZenohPico.Runtime

open Foundations

/-! ### Tasks -/

/-- `_z_fut_status_t` -/
inductive FutStatus where
  | running
  | ready
  | sleeping
  | suspended
deriving DecidableEq, Repr

/-- `_z_fut_schedule_t`, which packs a status and a wake-up time into 64 bits -/
structure FutSchedule where
  status : FutStatus
  wakeUpTimeMs : ℕ
deriving DecidableEq, Repr

/-- The wake-up times that fit beside the status: those of 56 bits -/
def wakeUpRange : ℕ := 0x100000000000000

namespace FutSchedule

/-- `_z_fut_schedule_running` -/
def running : FutSchedule := ⟨.running, 0⟩

/-- `_z_fut_schedule_ready` -/
def ready : FutSchedule := ⟨.ready, 0⟩

/-- `_z_fut_schedule_sleeping` -/
def sleeping (wakeUpTimeMs : ℕ) : FutSchedule := ⟨.sleeping, wakeUpTimeMs % wakeUpRange⟩

/-- `_z_fut_schedule_suspended` -/
def suspended : FutSchedule := ⟨.suspended, 0⟩

theorem running_ne_suspended : running.status ≠ .suspended := by decide

theorem ready_ne_suspended : ready.status ≠ .suspended := by decide

theorem sleeping_ne_suspended (wakeUpTimeMs : ℕ) : (sleeping wakeUpTimeMs).status ≠ .suspended :=
  FutStatus.noConfusion

end FutSchedule

/-- `_z_fut_data_t`. Of the future, it is known whether its function is there. -/
structure FutData where
  hasFn : Bool
  schedule : FutSchedule
deriving DecidableEq, Repr

/-- A write to `_schedule` -/
def FutData.reschedule (schedule : FutSchedule) (data : FutData) : FutData :=
  { data with schedule }

/-- `_z_fut_data_destroy` -/
def FutData.destroy (_ : FutData) : FutData := ⟨false, .ready⟩

/-! ### The pool -/

/-- An occupied slot of the pool: the id of the task, and the task -/
structure FutSlot where
  id : ℕ
  data : FutData
deriving DecidableEq, Repr

/-- `_z_fut_data_hmap_t`: a hash map in a fixed pool of slots. The list of the free slots is a
stack. -/
structure FutPool where
  slots : ℕ → Option FutSlot
  free : List ℕ

namespace FutPool

/-- `_z_fut_data_hmap_new`, of a pool of some capacity -/
def new (capacity : ℕ) : FutPool := ⟨fun _ ↦ none, List.range capacity⟩

/-- `_z_fut_data_hmap_get_iter` -/
def getIter (pool : FutPool) (capacity id : ℕ) : Option ℕ :=
  (List.range capacity).find? fun idx ↦
    match pool.slots idx with
    | none => false
    | some slot => slot.id == id

/-- A write to the value of a slot -/
def write (pool : FutPool) (idx : ℕ) (change : FutData → FutData) : FutPool :=
  { pool with
    slots := Function.update pool.slots idx
      ((pool.slots idx).map fun slot ↦ { slot with data := change slot.data }) }

/-- `_z_fut_data_hmap_insert`: the value of a key that is there is replaced. -/
def insert (pool : FutPool) (capacity id : ℕ) (data : FutData) : FutPool × Option ℕ :=
  match pool.getIter capacity id with
  | some idx => (pool.write idx fun _ ↦ data, some idx)
  | none =>
    match pool.free with
    | [] => (pool, none)
    | idx :: free => (⟨Function.update pool.slots idx (some ⟨id, data⟩), free⟩, some idx)

/-- `_z_fut_data_hmap_remove_at` -/
def removeAt (pool : FutPool) (idx : ℕ) : FutPool :=
  ⟨Function.update pool.slots idx none, idx :: pool.free⟩

/-- The schedule of a slot -/
def schedule (pool : FutPool) (idx : ℕ) : FutSchedule :=
  match pool.slots idx with
  | none => .ready
  | some slot => slot.data.schedule

/-- The key of `_z_sleeping_fut_idx_cmp` -/
def wakeUp (pool : FutPool) (idx : ℕ) : ℕ := (pool.schedule idx).wakeUpTimeMs

/-- The function of the task in a slot is there. -/
def hasFn (pool : FutPool) (idx : ℕ) : Bool :=
  match pool.slots idx with
  | none => false
  | some slot => slot.data.hasFn

end FutPool

/-! ### The executor -/

/-- `_z_executor_t`, with the slot whose task is being executed, and the number of pushes that
found no room -/
structure Executor where
  readyTasks : List ℕ
  sleepingTasks : List ℕ
  tasks : FutPool
  nextFutId : ℕ
  executing : Option ℕ
  overflows : ℕ

/-- The build's `Z_RUNTIME_MAX_TASKS`, and the number of values of `size_t` -/
structure ExecutorConfig where
  maxTasks : ℕ
  sizeRange : ℕ
deriving DecidableEq, Repr

namespace Executor

/-- `_z_executor_new` -/
def new (cfg : ExecutorConfig) : Executor where
  readyTasks := []
  sleepingTasks := []
  tasks := .new cfg.maxTasks
  nextFutId := 0
  executing := none
  overflows := 0

variable (cfg : ExecutorConfig) (ex : Executor)

/-- `_z_fut_data_hmap_index_deque_push_back`, whose result is not looked at -/
def pushReady (idx : ℕ) : Executor :=
  if ex.readyTasks.length = cfg.maxTasks then { ex with overflows := ex.overflows + 1 }
  else { ex with readyTasks := ex.readyTasks ++ [idx] }

/-- `_z_sleeping_fut_pqueue_push`, whose result is not looked at -/
def pushSleeping (idx : ℕ) : Executor :=
  if ex.sleepingTasks.length = cfg.maxTasks then { ex with overflows := ex.overflows + 1 }
  else { ex with sleepingTasks := heapPush ex.tasks.wakeUp ex.sleepingTasks idx }

/-- A write to the value of a slot -/
def write (idx : ℕ) (change : FutData → FutData) : Executor :=
  { ex with tasks := ex.tasks.write idx change }

/-- The id of the next task: 0 is the id of the null handle -/
def spawnId : ℕ := if ex.nextFutId = 0 then 1 else ex.nextFutId

/-- `_z_executor_spawn`, with the id of the handle -/
def spawn (hasFn : Bool) : Executor × ℕ :=
  match ex.tasks.insert cfg.maxTasks ex.spawnId ⟨hasFn, .running⟩ with
  | (_, none) => ({ ex with nextFutId := ex.spawnId }, 0)
  | (tasks, some idx) =>
    ({ ex with tasks, nextFutId := (ex.spawnId + 1) % cfg.sizeRange }.pushReady cfg idx, ex.spawnId)

/-- `_z_executor_state_t`, with the time of the next wake-up -/
inductive ExecutorStatus where
  | noTasks
  | readyToExecuteTask
  | shouldWait (nextWakeUpTime : ℕ)
deriving DecidableEq, Repr

/-- `_z_executor_get_status` -/
def getStatus (now : ℕ) : ExecutorStatus :=
  if ex.readyTasks ≠ [] then .readyToExecuteTask
  else
    match ex.sleepingTasks.head? with
    | none => .noTasks
    | some idx =>
      if ex.tasks.wakeUp idx < now then .readyToExecuteTask else .shouldWait (ex.tasks.wakeUp idx)

/-- The end of `_z_executor_get_next_fut`, where no sleeping task is due -/
def popReady (otherwise : ExecutorStatus) : Executor × ExecutorStatus × Option ℕ :=
  match ex.readyTasks with
  | [] => (ex, otherwise, none)
  | idx :: rest => ({ ex with readyTasks := rest }, .readyToExecuteTask, some idx)

/-- `_z_executor_get_next_fut` -/
def getNextFut (now : ℕ) : Executor × ExecutorStatus × Option ℕ :=
  match heapPop ex.tasks.wakeUp ex.sleepingTasks with
  | none => ex.popReady .noTasks
  | some (due, sleepingTasks) =>
    if ex.tasks.wakeUp due < now then
      match ex.readyTasks with
      | [] => ({ ex with sleepingTasks }, .readyToExecuteTask, some due)
      | idx :: rest =>
        (({ ex with sleepingTasks, readyTasks := rest }.pushReady cfg due).write due
          (FutData.reschedule .ready), .readyToExecuteTask, some idx)
    else ex.popReady (.shouldWait (ex.tasks.wakeUp due))

/-- Nothing is taken where nothing is ready and nothing is due. -/
theorem getNextFut_none {cfg : ExecutorConfig} {ex after : Executor} {now : ℕ}
    {status : ExecutorStatus} (h : ex.getNextFut cfg now = (after, status, none)) :
    after = ex ∧ ex.readyTasks = [] ∧
      ∀ due sleeping, heapPop ex.tasks.wakeUp ex.sleepingTasks = some (due, sleeping) →
        ¬ ex.tasks.wakeUp due < now := by
  have hpopReady : ∀ {otherwise}, ex.popReady otherwise = (after, status, none) →
      after = ex ∧ ex.readyTasks = [] := by
    intro otherwise hpop
    rw [popReady] at hpop
    split at hpop
    · next hready => exact ⟨(Prod.mk.inj hpop).1.symm, hready⟩
    · cases hpop
  rw [getNextFut] at h
  split at h
  · next hnone =>
    obtain ⟨rfl, hready⟩ := hpopReady h
    exact ⟨rfl, hready, fun due sleeping hpop ↦ by rw [hnone] at hpop; cases hpop⟩
  · next due sleeping hpop =>
    split at h
    · split at h <;> cases h
    · next hlater =>
      obtain ⟨rfl, hready⟩ := hpopReady h
      refine ⟨rfl, hready, fun due' sleeping' hpop' ↦ ?_⟩
      obtain ⟨rfl, -⟩ := Prod.mk.inj (some.inj (hpop.symm.trans hpop'))
      exact hlater

/-- What is taken is the first task of the deque, or the one that is due where the deque is
empty; a task that is due otherwise goes to the end of the deque. -/
theorem getNextFut_some {cfg : ExecutorConfig} {ex after : Executor} {now idx : ℕ}
    {status : ExecutorStatus} (h : ex.getNextFut cfg now = (after, status, some idx)) :
    (∃ rest, ex.readyTasks = idx :: rest ∧ after = { ex with readyTasks := rest } ∧
      ∀ due sleeping, heapPop ex.tasks.wakeUp ex.sleepingTasks = some (due, sleeping) →
        ¬ ex.tasks.wakeUp due < now) ∨ (ex.readyTasks = [] ∧ ∃ sleeping,
      heapPop ex.tasks.wakeUp ex.sleepingTasks = some (idx, sleeping) ∧
        after = { ex with sleepingTasks := sleeping }) ∨
    (∃ rest due sleeping, ex.readyTasks = idx :: rest ∧
      heapPop ex.tasks.wakeUp ex.sleepingTasks = some (due, sleeping) ∧
        after = ({ ex with sleepingTasks := sleeping, readyTasks := rest }.pushReady cfg due).write
          due (FutData.reschedule .ready)) := by
  have hpopReady : ∀ {otherwise}, ex.popReady otherwise = (after, status, some idx) →
      ∃ rest, ex.readyTasks = idx :: rest ∧ after = { ex with readyTasks := rest } := by
    intro otherwise hpop
    rw [popReady] at hpop
    split at hpop
    · cases hpop
    · next first rest hready =>
      simp only [Prod.mk.injEq, some.injEq] at hpop
      obtain ⟨rfl, -, rfl⟩ := hpop
      exact ⟨rest, hready, rfl⟩
  rw [getNextFut] at h
  split at h
  · next hnone =>
    obtain ⟨rest, hready, hafter⟩ := hpopReady h
    exact .inl ⟨rest, hready, hafter, fun due sleeping hpop ↦ by rw [hnone] at hpop; cases hpop⟩
  · next due sleeping hpop =>
    split at h
    · split at h
      · next hready =>
        simp only [Prod.mk.injEq, some.injEq] at h
        obtain ⟨rfl, -, rfl⟩ := h
        exact .inr (.inl ⟨hready, sleeping, hpop, rfl⟩)
      · next first rest hready =>
        simp only [Prod.mk.injEq, some.injEq] at h
        obtain ⟨rfl, -, rfl⟩ := h
        exact .inr (.inr ⟨rest, due, sleeping, hready, hpop, rfl⟩)
    · next hlater =>
      obtain ⟨rest, hready, hafter⟩ := hpopReady h
      refine .inl ⟨rest, hready, hafter, fun due' sleeping' hpop' ↦ ?_⟩
      obtain ⟨rfl, -⟩ := Prod.mk.inj (some.inj (hpop.symm.trans hpop'))
      exact hlater

/-- A task that is taken from the deque or the queue makes these shorter. -/
theorem length_getNextFut {cfg : ExecutorConfig} {ex after : Executor} {now idx : ℕ}
    {status : ExecutorStatus} (h : ex.getNextFut cfg now = (after, status, some idx)) :
    after.readyTasks.length + after.sleepingTasks.length <
      ex.readyTasks.length + ex.sleepingTasks.length := by
  rcases getNextFut_some h with ⟨rest, hready, rfl, -⟩ | ⟨hready, sleeping, hpop, rfl⟩ |
    ⟨rest, due, sleeping, hready, hpop, rfl⟩
  · rw [hready, length_cons]
    dsimp only
    omega
  · have hlen := (heapPop_perm hpop).2.length_eq
    rw [length_cons] at hlen
    dsimp only
    omega
  · have hlen := (heapPop_perm hpop).2.length_eq
    rw [length_cons] at hlen
    rw [hready, length_cons, pushReady]
    split
    · dsimp only [write]
      omega
    · dsimp only [write]
      rw [length_append, length_singleton]
      omega

/-- The loop of `_z_executor_spin`, up to the call of a task -/
def spin (cfg : ExecutorConfig) (now : ℕ) (ex : Executor) : Executor × ExecutorStatus :=
  match _h : ex.getNextFut cfg now with
  | (after, status, none) => (after, status)
  | (after, status, some idx) =>
    if after.tasks.hasFn idx = false then
      spin cfg now { after with tasks := after.tasks.removeAt idx }
    else if (after.tasks.schedule idx).status ≠ .suspended then
      ({ after with executing := some idx }, status)
    else spin cfg now after
termination_by ex.readyTasks.length + ex.sleepingTasks.length
decreasing_by
  · exact length_getNextFut _h
  · exact length_getNextFut _h

section Spin

variable {cfg : ExecutorConfig} {ex after : Executor} {now idx : ℕ} {status : ExecutorStatus}

theorem spin_idle (hnext : ex.getNextFut cfg now = (after, status, none)) :
    ex.spin cfg now = (after, status) := by
  rw [spin]
  split
  · next hnext' =>
    rw [hnext] at hnext'
    simp only [Prod.mk.injEq, and_true] at hnext'
    rw [hnext'.1, hnext'.2]
  · next hnext' => rw [hnext] at hnext'; cases hnext'

theorem spin_some (hnext : ex.getNextFut cfg now = (after, status, some idx)) : ex.spin cfg now =
      if after.tasks.hasFn idx = false then
        { after with tasks := after.tasks.removeAt idx }.spin cfg now
      else if (after.tasks.schedule idx).status ≠ .suspended then
        ({ after with executing := some idx }, status)
      else after.spin cfg now := by
  conv_lhs => rw [spin]
  split
  · next hnext' => rw [hnext] at hnext'; cases hnext'
  · next hnext' =>
    rw [hnext] at hnext'
    simp only [Prod.mk.injEq, some.injEq] at hnext'
    obtain ⟨rfl, rfl, rfl⟩ := hnext'
    rfl

/-- `spin` keeps what the choice of the next task and the freeing of its slot keep, where no task
that is chosen is suspended. -/
theorem spin_kept {P : Executor → Prop}
    (hnext : ∀ {ex : Executor}, P ex → ex.executing = none → ∀ after status idx,
      ex.getNextFut cfg now = (after, status, some idx) →
        after.executing = none ∧ P { after with executing := some idx })
    (hremove : ∀ {ex : Executor} {idx : ℕ}, ex.executing = none →
      P { ex with executing := some idx } → P { ex with tasks := ex.tasks.removeAt idx })
    (hawake : ∀ {ex : Executor} {idx : ℕ}, P { ex with executing := some idx } →
      (ex.tasks.schedule idx).status ≠ .suspended)
    (hidle : ex.executing = none) (h : P ex) : P (ex.spin cfg now).1 := by
  induction ex using spin.induct cfg now with
  | case1 ex after status hget =>
    rw [spin_idle hget, (getNextFut_none hget).1]
    exact h
  | case2 ex after status idx hget hfn ih =>
    obtain ⟨hafter, hkept⟩ := hnext h hidle _ _ _ hget
    rw [spin_some hget, if_pos hfn]
    exact ih hafter (hremove hafter hkept)
  | case3 ex after status idx hget hfn hstatus =>
    rw [spin_some hget, if_neg hfn, if_pos hstatus]
    exact (hnext h hidle _ _ _ hget).2
  | case4 ex after status idx hget hfn hstatus ih =>
    exact absurd hstatus (not_not_intro (hawake (hnext h hidle _ _ _ hget).2))

end Spin

/-- `_z_fut_fn_result_t`, with the wake-up time in milliseconds from the epoch of the executor -/
inductive FutFnResult where
  | running
  | ready
  | sleeping (wakeUpTime : ℕ)
  | suspended
deriving DecidableEq, Repr

/-- `_z_executor_spin`, from the return of the task on; it ends with `getStatus`. -/
def finish (result : FutFnResult) : Executor :=
  match ex.executing with
  | none => ex
  | some idx =>
    match result with
    | .running =>
      ({ ex with executing := none }.write idx (FutData.reschedule .running)).pushReady cfg idx
    | .sleeping wakeUpTime =>
      ({ ex with executing := none }.write idx
        (FutData.reschedule (.sleeping wakeUpTime))).pushSleeping cfg idx
    | .ready => { ex with executing := none, tasks := ex.tasks.removeAt idx }
    | .suspended =>
      { ex with executing := none }.write idx (FutData.reschedule .suspended)

/-- `_z_executor_cancel_fut` -/
def cancelFut (id : ℕ) : Executor × Bool :=
  if id = 0 then (ex, false)
  else
    match ex.tasks.getIter cfg.maxTasks id with
    | none => (ex, false)
    | some idx => (ex.write idx FutData.destroy, true)

/-- `_z_executor_resume_suspended_fut` -/
def resumeSuspendedFut (id : ℕ) : Executor × Bool :=
  if id = 0 then (ex, false)
  else
    match ex.tasks.getIter cfg.maxTasks id with
    | none => (ex, false)
    | some idx =>
      if (ex.tasks.schedule idx).status ≠ .suspended then (ex, false)
      else
        ((ex.write idx (FutData.reschedule .ready)).pushReady cfg idx, true)

/-! ### Runs -/

/-- The calls of the executor. A spin that calls a task ends with the return of the task; what is
called in between is called by the task. -/
inductive Op where
  | spawn (hasFn : Bool)
  | cancel (id : ℕ)
  | resume (id : ℕ)
  | spin (now : ℕ)
  | finish (now : ℕ) (result : FutFnResult)
deriving DecidableEq, Repr

/-- One call -/
def step : Op → Executor
  | .spawn hasFn => (ex.spawn cfg hasFn).1
  | .cancel id => (ex.cancelFut cfg id).1
  | .resume id => (ex.resumeSuspendedFut cfg id).1
  | .spin now => (ex.spin cfg now).1
  | .finish _ result => ex.finish cfg result

/-- The calls of a run -/
def run : List Op → Executor → Executor
  | [], ex => ex
  | op :: ops, ex => run ops (ex.step cfg op)

/-- A spin is called by no task, and what returns is a task that is being executed. -/
def WellFormed : Op → Prop
  | .spin _ => ex.executing = none
  | .finish _ _ => ex.executing ≠ none
  | .spawn _ | .cancel _ | .resume _ => True

end Executor

/-! ### The pool keeps its slots apart -/

variable {id : ℕ}

section Pool

variable {cfg : ExecutorConfig} {pool : FutPool} {idx : ℕ}

/-- The slots of a pool have different ids, and those that are not occupied are free. -/
structure FutPool.Inv (capacity : ℕ) (pool : FutPool) : Prop where
  free_nodup : pool.free.Nodup
  mem_free : ∀ idx, idx ∈ pool.free ↔ idx < capacity ∧ pool.slots idx = none
  lt_capacity : ∀ idx slot, pool.slots idx = some slot → idx < capacity
  ids : ∀ idx idx' slot slot', pool.slots idx = some slot → pool.slots idx' = some slot' →
    slot.id = slot'.id → idx = idx'
  id_ne_zero : ∀ idx slot, pool.slots idx = some slot → slot.id ≠ 0

theorem FutPool.new_inv (capacity : ℕ) : (FutPool.new capacity).Inv capacity where
  free_nodup := nodup_range
  mem_free idx := by simp [FutPool.new]
  lt_capacity idx slot h := by cases h
  ids idx idx' slot slot' h := by cases h
  id_ne_zero idx slot h := by cases h

variable {capacity idx' : ℕ}

theorem FutPool.getIter_some (h : pool.getIter capacity id = some idx) :
    ∃ slot, pool.slots idx = some slot ∧ slot.id = id := by
  have hfound := List.find?_some h
  split at hfound
  · cases hfound
  · next slot hslot => exact ⟨slot, hslot, beq_iff_eq.mp hfound⟩

variable {slot : FutSlot}

/-- A task that is in the pool is found by its id. -/
theorem FutPool.Inv.getIter (hpool : pool.Inv capacity) (h : pool.slots idx = some slot) :
    pool.getIter capacity slot.id = some idx := by
  have hsome : (pool.getIter capacity slot.id).isSome := by
    rw [FutPool.getIter, List.find?_isSome]
    exact ⟨idx, mem_range.mpr (hpool.lt_capacity idx slot h), by simp [h]⟩
  obtain ⟨idx', hidx'⟩ := isSome_iff_exists.mp hsome
  obtain ⟨slot', hslot', hid⟩ := FutPool.getIter_some hidx'
  rw [hidx', hpool.ids idx idx' slot slot' h hslot' hid.symm]

theorem FutPool.getIter_none (hpool : pool.Inv capacity) (h : pool.getIter capacity id = none)
    (hslot : pool.slots idx = some slot) : slot.id ≠ id := by
  rintro rfl
  rw [hpool.getIter hslot] at h
  cases h

@[simp] theorem FutPool.write_slots_self (pool : FutPool) (idx : ℕ) (change : FutData → FutData) :
    (pool.write idx change).slots idx =
      (pool.slots idx).map fun slot ↦ { slot with data := change slot.data } :=
  Function.update_self ..

theorem FutPool.write_slots_of_ne (pool : FutPool) (change : FutData → FutData) {idx : ℕ}
    (h : idx' ≠ idx) : (pool.write idx change).slots idx' = pool.slots idx' :=
  Function.update_of_ne h ..

variable {change : FutData → FutData}

/-- What is in a slot after a write -/
theorem FutPool.write_slots_cases (h : (pool.write idx change).slots idx' = some slot) :
    ∃ old, pool.slots idx' = some old ∧ slot.id = old.id ∧
      ((idx' = idx ∧ slot.data = change old.data) ∨ (idx' ≠ idx ∧ slot = old)) := by
  by_cases hidx : idx' = idx
  · subst hidx
    rw [FutPool.write_slots_self] at h
    obtain ⟨old, hold, rfl⟩ := map_eq_some_iff.mp h
    exact ⟨old, hold, rfl, .inl ⟨rfl, rfl⟩⟩
  · rw [FutPool.write_slots_of_ne pool change hidx] at h
    exact ⟨slot, h, rfl, .inr ⟨hidx, rfl⟩⟩

theorem FutPool.write_slots_eq_none :
    (pool.write idx change).slots idx' = none ↔ pool.slots idx' = none := by
  by_cases hidx : idx' = idx
  · subst hidx
    rw [FutPool.write_slots_self, map_eq_none_iff]
  · rw [FutPool.write_slots_of_ne pool change hidx]

theorem FutPool.Inv.write (hpool : pool.Inv capacity) (idx : ℕ) (change : FutData → FutData) :
    (pool.write idx change).Inv capacity where
  free_nodup := hpool.free_nodup
  mem_free idx' := by
    rw [FutPool.write_slots_eq_none]
    exact hpool.mem_free idx'
  lt_capacity idx' slot h := by
    obtain ⟨old, hold, -⟩ := FutPool.write_slots_cases h
    exact hpool.lt_capacity idx' old hold
  ids idx' idx'' slot slot' h h' hid := by
    obtain ⟨old, hold, hidold, -⟩ := FutPool.write_slots_cases h
    obtain ⟨old', hold', hidold', -⟩ := FutPool.write_slots_cases h'
    exact hpool.ids idx' idx'' old old' hold hold' (hidold.symm.trans (hid.trans hidold'))
  id_ne_zero idx' slot h := by
    obtain ⟨old, hold, hid, -⟩ := FutPool.write_slots_cases h
    exact hid ▸ hpool.id_ne_zero idx' old hold

theorem FutPool.removeAt_slots_self (pool : FutPool) (idx : ℕ) :
    (pool.removeAt idx).slots idx = none :=
  Function.update_self ..

theorem FutPool.removeAt_slots_of_ne (pool : FutPool) {idx : ℕ} (h : idx' ≠ idx) :
    (pool.removeAt idx).slots idx' = pool.slots idx' :=
  Function.update_of_ne h ..

theorem FutPool.removeAt_slots_some (h : (pool.removeAt idx).slots idx' = some slot) :
    idx' ≠ idx ∧ pool.slots idx' = some slot := by
  by_cases hidx : idx' = idx
  · subst hidx
    rw [FutPool.removeAt_slots_self] at h
    cases h
  · exact ⟨hidx, FutPool.removeAt_slots_of_ne pool hidx ▸ h⟩

theorem FutPool.Inv.removeAt (hpool : pool.Inv capacity) (h : pool.slots idx = some slot) :
    (pool.removeAt idx).Inv capacity where
  free_nodup := by
    refine nodup_cons.mpr ⟨fun hmem ↦ ?_, hpool.free_nodup⟩
    rw [((hpool.mem_free idx).mp hmem).2] at h
    cases h
  mem_free idx' := by
    rw [FutPool.removeAt, mem_cons, hpool.mem_free idx']
    by_cases hidx : idx' = idx
    · subst hidx
      simp [hpool.lt_capacity idx' slot h]
    · dsimp only
      rw [Function.update_of_ne hidx]
      exact or_iff_right hidx
  lt_capacity idx' slot' h' := hpool.lt_capacity idx' slot' (FutPool.removeAt_slots_some h').2
  ids idx' idx'' slot' slot'' h' h'' :=
    hpool.ids idx' idx'' slot' slot'' (FutPool.removeAt_slots_some h').2
      (FutPool.removeAt_slots_some h'').2
  id_ne_zero idx' slot' h' := hpool.id_ne_zero idx' slot' (FutPool.removeAt_slots_some h').2

/-- A key that is not in the pool gets a slot that was free, or none. -/
theorem FutPool.Inv.insert (hpool : pool.Inv capacity) (hid : id ≠ 0)
    (hfresh : pool.getIter capacity id = none) (data : FutData) :
    pool.insert capacity id data = (pool, none) ∨ ∃ idx free, pool.slots idx = none ∧
        pool.insert capacity id data =
          (⟨Function.update pool.slots idx (some ⟨id, data⟩), free⟩, some idx) ∧
        FutPool.Inv capacity ⟨Function.update pool.slots idx (some ⟨id, data⟩), free⟩ := by
  rw [FutPool.insert, hfresh]
  dsimp only
  split
  · exact .inl rfl
  · next idx free hfree =>
    have hidx : idx ∈ pool.free := hfree ▸ mem_cons_self
    obtain ⟨hlt, hnone⟩ := (hpool.mem_free idx).mp hidx
    have hnodup := hpool.free_nodup
    rw [hfree, nodup_cons] at hnodup
    refine .inr ⟨idx, free, hnone, rfl, ?_⟩
    have hcases : ∀ idx' slot, Function.update pool.slots idx (some ⟨id, data⟩) idx' = some slot →
        (idx' = idx ∧ slot = ⟨id, data⟩) ∨ (idx' ≠ idx ∧ pool.slots idx' = some slot) := by
      intro idx' slot h
      by_cases hidx' : idx' = idx
      · subst hidx'
        rw [Function.update_self] at h
        exact .inl ⟨rfl, (some.inj h).symm⟩
      · rw [Function.update_of_ne hidx'] at h
        exact .inr ⟨hidx', h⟩
    refine ⟨hnodup.2, fun idx' ↦ ?_, fun idx' slot h ↦ ?_, fun idx' idx'' slot slot' h h' hsame ↦ ?_,
      fun idx' slot h ↦ ?_⟩
    · by_cases hidx' : idx' = idx
      · subst hidx'
        simp [hnodup.1]
      · have hmem := hpool.mem_free idx'
        rw [hfree, mem_cons, or_iff_right hidx'] at hmem
        dsimp only
        rw [Function.update_of_ne hidx', hmem]
    · rcases hcases idx' slot h with ⟨rfl, -⟩ | ⟨-, hold⟩
      · exact hlt
      · exact hpool.lt_capacity idx' slot hold
    · rcases hcases idx' slot h with ⟨rfl, rfl⟩ | ⟨-, hold⟩ <;>
        rcases hcases idx'' slot' h' with ⟨rfl, rfl⟩ | ⟨-, hold'⟩
      · rfl
      · exact absurd hsame.symm (FutPool.getIter_none hpool hfresh hold')
      · exact absurd hsame (FutPool.getIter_none hpool hfresh hold)
      · exact hpool.ids idx' idx'' slot slot' hold hold' hsame
    · rcases hcases idx' slot h with ⟨rfl, rfl⟩ | ⟨-, hold⟩
      · exact hid
      · exact hpool.id_ne_zero idx' slot hold

/-! ### No task is in two places -/

/-- The slots in the places are occupied, by tasks that are not suspended, and no slot is in two
places. -/
structure FutPool.Apart (pool : FutPool) (places : List ℕ) : Prop where
  nodup : places.Nodup
  occupied : ∀ idx ∈ places, ∃ slot, pool.slots idx = some slot ∧
    slot.data.schedule.status ≠ .suspended

variable {places' : List ℕ}

section Apart

variable {places : List ℕ}

theorem FutPool.Apart.perm (h : pool.Apart places) (hperm : places'.Perm places) :
    pool.Apart places' where
  nodup := hperm.nodup_iff.mpr h.nodup
  occupied idx hidx := h.occupied idx (hperm.mem_iff.mp hidx)

/-- There is room for every place. -/
theorem FutPool.Apart.length_le (h : pool.Apart places) (hpool : pool.Inv capacity) :
    places.length ≤ capacity := by
  have hsub : places ⊆ List.range capacity := by
    intro idx hidx
    obtain ⟨slot, hslot, -⟩ := h.occupied idx hidx
    exact mem_range.mpr (hpool.lt_capacity idx slot hslot)
  exact ((h.nodup.subperm hsub).length_le).trans_eq length_range

theorem FutPool.Apart.congr (h : pool.Apart places) {pool' : FutPool}
    (hslots : ∀ idx ∈ places, pool'.slots idx = pool.slots idx) : pool'.Apart places where
  nodup := h.nodup
  occupied idx hidx := by
    rw [hslots idx hidx]
    exact h.occupied idx hidx

theorem FutPool.Apart.cons (h : pool.Apart places) (hidx : idx ∉ places) {slot : FutSlot}
    (hslot : pool.slots idx = some slot) (hstatus : slot.data.schedule.status ≠ .suspended) :
    pool.Apart (idx :: places) where
  nodup := nodup_cons.mpr ⟨hidx, h.nodup⟩
  occupied idx' hidx' := by
    rcases mem_cons.mp hidx' with rfl | hmem
    · exact ⟨slot, hslot, hstatus⟩
    · exact h.occupied idx' hmem

theorem FutPool.Apart.tail (h : pool.Apart (idx :: places)) : idx ∉ places ∧ pool.Apart places :=
  ⟨(nodup_cons.mp h.nodup).1, (nodup_cons.mp h.nodup).2,
    fun idx' hidx' ↦ h.occupied idx' (mem_cons_of_mem idx hidx')⟩

/-- A task that is in a place stays there, as long as it is not suspended. -/
theorem FutPool.Apart.write (h : pool.Apart places) (idx : ℕ)
    (hchange : ∀ data, data.schedule.status ≠ .suspended →
      (change data).schedule.status ≠ .suspended) : (pool.write idx change).Apart places where
  nodup := h.nodup
  occupied idx' hidx' := by
    obtain ⟨slot, hslot, hstatus⟩ := h.occupied idx' hidx'
    by_cases heq : idx' = idx
    · subst heq
      exact ⟨_, by rw [FutPool.write_slots_self, hslot]; rfl, hchange _ hstatus⟩
    · exact ⟨slot, by rw [FutPool.write_slots_of_ne pool change heq, hslot], hstatus⟩

theorem FutPool.Apart.not_mem (h : pool.Apart places) (hnone : pool.slots idx = none) :
    idx ∉ places := by
  intro hmem
  obtain ⟨slot, hslot, -⟩ := h.occupied idx hmem
  rw [hnone] at hslot
  cases hslot

/-- A task gets a place. -/
theorem FutPool.Apart.resume (h : pool.Apart places) (hidx : idx ∉ places)
    (hslot : pool.slots idx = some slot)
    (hchange : ∀ data, (change data).schedule.status ≠ .suspended) :
    (pool.write idx change).Apart (idx :: places) := by
  have hothers : (pool.write idx change).Apart places := h.congr fun idx' hidx' ↦
    FutPool.write_slots_of_ne pool change (ne_of_mem_of_not_mem hidx' hidx)
  exact hothers.cons hidx (by rw [FutPool.write_slots_self, hslot]; rfl) (hchange _)

/-- A new task gets a place. -/
theorem FutPool.Apart.insert (h : pool.Apart places) (hidx : idx ∉ places)
    (hslot : slot.data.schedule.status ≠ .suspended) (free : List ℕ) :
    FutPool.Apart ⟨Function.update pool.slots idx (some slot), free⟩ (idx :: places) := by
  have hothers : FutPool.Apart ⟨Function.update pool.slots idx (some slot), free⟩ places :=
    h.congr fun idx' hidx' ↦ Function.update_of_ne (ne_of_mem_of_not_mem hidx' hidx) ..
  exact hothers.cons hidx (Function.update_self ..) hslot

/-- A task leaves its place. -/
theorem FutPool.Apart.leave (h : pool.Apart (idx :: places)) {pool' : FutPool}
    (hslots : ∀ idx' ≠ idx, pool'.slots idx' = pool.slots idx') : pool'.Apart places :=
  h.tail.2.congr fun idx' hidx' ↦ hslots idx' (ne_of_mem_of_not_mem hidx' h.tail.1)

end Apart

/-! ### Every task is in one place -/

/-- The occupied slots that are in no place are those of suspended tasks, which are not
cancelled. -/
structure FutPool.Placed (pool : FutPool) (places : List ℕ) : Prop where
  nodup : places.Nodup
  occupied : ∀ idx ∈ places, ∃ slot, pool.slots idx = some slot ∧
    slot.data.schedule.status ≠ .suspended
  suspended : ∀ idx slot, pool.slots idx = some slot → idx ∉ places →
    slot.data.schedule.status = .suspended ∧ slot.data.hasFn = true

variable {places : List ℕ}

theorem FutPool.Placed.apart (h : pool.Placed places) : pool.Apart places :=
  ⟨h.nodup, h.occupied⟩

theorem FutPool.Placed.perm (h : pool.Placed places) (hperm : places'.Perm places) :
    pool.Placed places' where
  nodup := (h.apart.perm hperm).nodup
  occupied := (h.apart.perm hperm).occupied
  suspended idx slot hslot hidx := h.suspended idx slot hslot fun hmem ↦
    hidx (hperm.mem_iff.mpr hmem)

/-- A task that is in a place stays there, as long as it is not suspended. -/
theorem FutPool.Placed.write (h : pool.Placed places) (hidx : idx ∈ places)
    (hchange : ∀ data, data.schedule.status ≠ .suspended →
      (change data).schedule.status ≠ .suspended) : (pool.write idx change).Placed places where
  nodup := h.nodup
  occupied := (h.apart.write idx hchange).occupied
  suspended idx' slot hslot hidx' := by
    obtain ⟨old, hold, -, ⟨rfl, -⟩ | ⟨-, rfl⟩⟩ := FutPool.write_slots_cases hslot
    · exact absurd hidx hidx'
    · exact h.suspended idx' slot hold hidx'

/-- A suspended task gets a place. -/
theorem FutPool.Placed.resume (h : pool.Placed places) (hidx : idx ∉ places)
    (hslot : pool.slots idx = some slot)
    (hchange : ∀ data, (change data).schedule.status ≠ .suspended) :
    (pool.write idx change).Placed (idx :: places) where
  nodup := (h.apart.resume hidx hslot hchange).nodup
  occupied := (h.apart.resume hidx hslot hchange).occupied
  suspended idx' slot' hslot' hidx' := by
    rw [mem_cons, not_or] at hidx'
    rw [FutPool.write_slots_of_ne pool change hidx'.1] at hslot'
    exact h.suspended idx' slot' hslot' hidx'.2

/-- A new task gets a place. -/
theorem FutPool.Placed.insert (h : pool.Placed places) (hnone : pool.slots idx = none)
    (hslot : slot.data.schedule.status ≠ .suspended) (free : List ℕ) :
    FutPool.Placed ⟨Function.update pool.slots idx (some slot), free⟩ (idx :: places) where
  nodup := (h.apart.insert (h.apart.not_mem hnone) hslot free).nodup
  occupied := (h.apart.insert (h.apart.not_mem hnone) hslot free).occupied
  suspended idx' slot' hslot' hidx' := by
    rw [mem_cons, not_or] at hidx'
    exact h.suspended idx' slot' ((Function.update_of_ne hidx'.1 ..).symm.trans hslot') hidx'.2

/-- The slot of a task leaves the pool with its place. -/
theorem FutPool.Placed.removeAt (h : pool.Placed (idx :: places)) :
    (pool.removeAt idx).Placed places where
  nodup := h.apart.tail.2.nodup
  occupied := (h.apart.leave fun _ ↦ FutPool.removeAt_slots_of_ne pool).occupied
  suspended idx' slot hslot hidx' := by
    obtain ⟨hne, hold⟩ := FutPool.removeAt_slots_some hslot
    exact h.suspended idx' slot hold fun hmem ↦ hidx' ((mem_cons.mp hmem).resolve_left hne)

/-- A task that is suspended leaves its place. -/
theorem FutPool.Placed.suspend (h : pool.Placed (idx :: places)) (hfn : pool.hasFn idx = true) :
    (pool.write idx (FutData.reschedule .suspended)).Placed places where
  nodup := h.apart.tail.2.nodup
  occupied := (h.apart.leave fun _ ↦ FutPool.write_slots_of_ne pool _).occupied
  suspended idx' slot hslot hidx' := by
    obtain ⟨old, hold, -, ⟨rfl, hdata⟩ | ⟨hne, rfl⟩⟩ := FutPool.write_slots_cases hslot
    · rw [FutPool.hasFn, hold] at hfn
      rw [hdata]
      exact ⟨rfl, hfn⟩
    · exact h.suspended idx' slot hold fun hmem ↦
        hidx' ((mem_cons.mp hmem).resolve_left hne)

end Pool

namespace Executor

/-- The slots that are in a place -/
def places (ex : Executor) : List ℕ := ex.readyTasks ++ ex.sleepingTasks ++ ex.executing.toList

theorem places_pushReady (ex : Executor) (idx : ℕ) :
    { ex with readyTasks := ex.readyTasks ++ [idx] }.places.Perm (idx :: ex.places) := by
  calc ((ex.readyTasks ++ [idx]) ++ ex.sleepingTasks ++ ex.executing.toList)
      = ex.readyTasks ++ idx :: (ex.sleepingTasks ++ ex.executing.toList) := by simp
    _ |>.Perm (idx :: (ex.readyTasks ++ (ex.sleepingTasks ++ ex.executing.toList))) :=
        perm_middle
    _ = idx :: ex.places := by rw [places, append_assoc]

theorem places_pushSleeping (ex : Executor) (idx : ℕ) :
    { ex with sleepingTasks := heapPush ex.tasks.wakeUp ex.sleepingTasks idx }.places.Perm
      (idx :: ex.places) := by
  have hpush := heapPush_perm ex.tasks.wakeUp ex.sleepingTasks idx
  calc (ex.readyTasks ++ heapPush ex.tasks.wakeUp ex.sleepingTasks idx ++ ex.executing.toList)
      |>.Perm (ex.readyTasks ++ (idx :: ex.sleepingTasks) ++ ex.executing.toList) :=
        (hpush.append_left _).append_right _
    _ |>.Perm (idx :: (ex.readyTasks ++ ex.sleepingTasks) ++ ex.executing.toList) :=
        perm_middle.append_right _

/-- The first task of the deque is taken, and the sleeper that is due out of the queue. -/
theorem places_moved {ex : Executor} (hidle : ex.executing = none) {idx due : ℕ}
    {rest sleeping : List ℕ} (hready : ex.readyTasks = idx :: rest)
    (hpop : heapPop ex.tasks.wakeUp ex.sleepingTasks = some (due, sleeping)) :
    (due :: { ex with sleepingTasks := sleeping, readyTasks := rest,
                      executing := some idx }.places).Perm ex.places := by
  rw [places, places, hready, hidle, toList_none, append_nil]
  calc (due :: (rest ++ sleeping ++ [idx]))
      |>.Perm (due :: (idx :: (rest ++ sleeping))) :=
        (perm_append_singleton idx _).cons due
    _ |>.Perm (idx :: (due :: (rest ++ sleeping))) := .swap ..
    _ |>.Perm (idx :: (rest ++ due :: sleeping)) := perm_middle.symm.cons idx
    _ |>.Perm (idx :: (rest ++ ex.sleepingTasks)) :=
        ((heapPop_perm hpop).2.append_left rest).cons idx

/-- What holds in every state -/
structure Inv (cfg : ExecutorConfig) (ex : Executor) : Prop where
  pool : ex.tasks.Inv cfg.maxTasks
  placed : ex.tasks.Placed ex.places
  overflows : ex.overflows = 0

section Calls

variable {cfg : ExecutorConfig} {ex : Executor}

theorem new_inv (cfg : ExecutorConfig) : (new cfg).Inv cfg where
  pool := FutPool.new_inv cfg.maxTasks
  placed := ⟨nodup_nil, fun idx hidx ↦ absurd hidx not_mem_nil, fun idx slot h ↦ by cases h⟩
  overflows := rfl

theorem pushReady_of_lt (h : ex.readyTasks.length < cfg.maxTasks) (idx : ℕ) :
    ex.pushReady cfg idx = { ex with readyTasks := ex.readyTasks ++ [idx] } :=
  if_neg h.ne

/-- A slot that has no place yet fits into the deque. -/
theorem pushReady_eq {idx : ℕ} (hpool : ex.tasks.Inv cfg.maxTasks)
    (hapart : ex.tasks.Apart (idx :: ex.places)) :
    ex.pushReady cfg idx = { ex with readyTasks := ex.readyTasks ++ [idx] } := by
  have hlen := hapart.length_le hpool
  rw [places, length_cons, length_append, length_append] at hlen
  exact pushReady_of_lt (by omega) idx

theorem pushReady_inv {idx : ℕ} (hpool : ex.tasks.Inv cfg.maxTasks)
    (hplaced : ex.tasks.Placed (idx :: ex.places)) (hoverflows : ex.overflows = 0) :
    (ex.pushReady cfg idx).Inv cfg := by
  rw [pushReady_eq hpool hplaced.apart]
  exact ⟨hpool, hplaced.perm (places_pushReady ex idx), hoverflows⟩

/-- A slot that has no place yet fits into the queue. -/
theorem pushSleeping_eq {idx : ℕ} (hpool : ex.tasks.Inv cfg.maxTasks)
    (hapart : ex.tasks.Apart (idx :: ex.places)) : ex.pushSleeping cfg idx =
      { ex with sleepingTasks := heapPush ex.tasks.wakeUp ex.sleepingTasks idx } := by
  have hlen := hapart.length_le hpool
  rw [places, length_cons, length_append, length_append] at hlen
  exact if_neg (by omega)

theorem pushSleeping_inv {idx : ℕ} (hpool : ex.tasks.Inv cfg.maxTasks)
    (hplaced : ex.tasks.Placed (idx :: ex.places)) (hoverflows : ex.overflows = 0) :
    (ex.pushSleeping cfg idx).Inv cfg := by
  rw [pushSleeping_eq hpool hplaced.apart]
  exact ⟨hpool, hplaced.perm (places_pushSleeping ex idx), hoverflows⟩

theorem spawnId_ne_zero (ex : Executor) : ex.spawnId ≠ 0 := by
  rw [spawnId]
  split
  · exact Nat.one_ne_zero
  · next hne => exact hne

theorem Inv.spawn (h : ex.Inv cfg) (hasFn : Bool)
    (hfresh : ex.tasks.getIter cfg.maxTasks ex.spawnId = none) :
    (ex.spawn cfg hasFn).1.Inv cfg := by
  rw [Executor.spawn]
  rcases h.pool.insert ex.spawnId_ne_zero hfresh ⟨hasFn, .running⟩ with
    hfull | ⟨idx, free, hnone, hinsert, hpool⟩
  · rw [hfull]
    exact ⟨h.pool, h.placed, h.overflows⟩
  · rw [hinsert]
    exact pushReady_inv hpool
      (h.placed.insert hnone FutSchedule.running_ne_suspended free) h.overflows

theorem Inv.cancelFut (h : ex.Inv cfg) (hid : ∀ idx, ex.tasks.getIter cfg.maxTasks id = some idx →
      (ex.tasks.schedule idx).status ≠ .suspended) : (ex.cancelFut cfg id).1.Inv cfg := by
  rw [Executor.cancelFut]
  split
  · exact h
  split
  · exact h
  · next idx hidx =>
    obtain ⟨slot, hslot, -⟩ := FutPool.getIter_some hidx
    have hmem : idx ∈ ex.places := by
      by_contra hnot
      refine hid idx hidx ?_
      rw [FutPool.schedule, hslot]
      exact (h.placed.suspended idx slot hslot hnot).1
    exact ⟨h.pool.write idx _,
      h.placed.write hmem fun _ _ ↦ FutSchedule.ready_ne_suspended, h.overflows⟩

/-- A suspended task is in no place, so it may get one. -/
theorem Inv.resume_placed (h : ex.Inv cfg) {idx : ℕ}
    (hidx : ex.tasks.getIter cfg.maxTasks id = some idx)
    (hsuspended : ¬ (ex.tasks.schedule idx).status ≠ .suspended) :
    (ex.tasks.write idx (FutData.reschedule .ready)).Placed (idx :: ex.places) := by
  obtain ⟨slot, hslot, -⟩ := FutPool.getIter_some hidx
  refine h.placed.resume (fun hmem ↦ ?_) hslot fun _ ↦ FutSchedule.ready_ne_suspended
  obtain ⟨slot', hslot', hstatus⟩ := h.placed.occupied idx hmem
  refine hsuspended ?_
  rwa [FutPool.schedule, hslot']

theorem Inv.resumeSuspendedFut (h : ex.Inv cfg) (id : ℕ) :
    (ex.resumeSuspendedFut cfg id).1.Inv cfg := by
  rw [Executor.resumeSuspendedFut]
  split
  · exact h
  split
  · exact h
  · next idx hidx =>
    split
    · exact h
    · next hsuspended =>
      exact pushReady_inv (h.pool.write idx (.reschedule .ready))
        (h.resume_placed hidx hsuspended) h.overflows

/-- A task that is taken is not in the deque or the queue any more; nothing else has moved. -/
theorem Inv.getNextFut (h : ex.Inv cfg) (hidle : ex.executing = none) {now idx : ℕ}
    {after : Executor} {status : ExecutorStatus}
    (hnext : ex.getNextFut cfg now = (after, status, some idx)) :
    after.executing = none ∧ { after with executing := some idx }.Inv cfg := by
  have hplaces : ex.places = ex.readyTasks ++ ex.sleepingTasks := by
    rw [places, hidle, toList_none, append_nil]
  rcases getNextFut_some hnext with ⟨rest, hready, rfl, -⟩ | ⟨hready, sleeping, hpop, rfl⟩ |
    ⟨rest, due, sleeping, hready, hpop, rfl⟩
  · refine ⟨hidle, h.pool, h.placed.perm ?_, h.overflows⟩
    rw [hplaces, hready]
    exact perm_append_singleton idx _
  · refine ⟨hidle, h.pool, h.placed.perm ?_, h.overflows⟩
    rw [hplaces, hready]
    exact (perm_append_singleton idx _).trans (heapPop_perm hpop).2
  · -- the task that is due goes behind the others of the deque
    have hmoved := h.placed.perm (places_moved hidle hready hpop)
    have hlen := hmoved.apart.length_le h.pool
    rw [places, length_cons, length_append, length_append] at hlen
    rw [pushReady_of_lt (by dsimp only at hlen ⊢; omega)]
    refine ⟨hidle, h.pool.write due (.reschedule .ready), ?_, h.overflows⟩
    exact (hmoved.write mem_cons_self fun _ _ ↦ FutSchedule.ready_ne_suspended).perm
      (places_pushReady
        { ex with sleepingTasks := sleeping, readyTasks := rest, executing := some idx } due)

/-- The slot of a task that was taken and is not executed is freed. -/
theorem Inv.removeAt {idx : ℕ} (hidle : ex.executing = none)
    (h : { ex with executing := some idx }.Inv cfg) :
    { ex with tasks := ex.tasks.removeAt idx }.Inv cfg := by
  have hplaced : ex.tasks.Placed (idx :: (ex.readyTasks ++ ex.sleepingTasks)) :=
    h.placed.perm (perm_append_singleton idx _).symm
  obtain ⟨slot, hslot, -⟩ := hplaced.occupied idx mem_cons_self
  refine ⟨h.pool.removeAt hslot, hplaced.removeAt.perm ?_, h.overflows⟩
  rw [places, hidle, toList_none, append_nil]

/-- What is taken is not suspended. -/
theorem Inv.not_suspended {idx : ℕ} (h : { ex with executing := some idx }.Inv cfg) :
    (ex.tasks.schedule idx).status ≠ .suspended := by
  have hmem : idx ∈ { ex with executing := some idx }.places := by simp [places]
  obtain ⟨slot, hslot, hstatus⟩ := h.placed.occupied idx hmem
  rwa [FutPool.schedule, hslot]

theorem Inv.spin (h : ex.Inv cfg) (hidle : ex.executing = none) (now : ℕ) :
    (ex.spin cfg now).1.Inv cfg :=
  spin_kept (fun h hidle _ _ _ hnext ↦ h.getNextFut hidle hnext) (fun hidle h ↦ h.removeAt hidle)
    Inv.not_suspended hidle h

/-- A task that is executed is neither in the deque nor in the queue. -/
theorem Inv.executing_placed (h : ex.Inv cfg) {idx : ℕ} (hexecuting : ex.executing = some idx) :
    ex.tasks.Placed (idx :: { ex with executing := none }.places) ∧
      idx ∉ ex.readyTasks ++ ex.sleepingTasks := by
  have hplaced : ex.tasks.Placed (idx :: { ex with executing := none }.places) := by
    refine h.placed.perm ?_
    rw [places, places, hexecuting, toList_none, append_nil]
    exact (perm_append_singleton idx _).symm
  exact ⟨hplaced, fun hmem ↦
    (nodup_cons.mp hplaced.nodup).1 (mem_append_left _ hmem)⟩

/-- A task that was cancelled while it was executed does not suspend itself. -/
theorem Inv.finish (h : ex.Inv cfg) {result : FutFnResult}
    (hresult : result = .suspended → ∀ idx, ex.executing = some idx →
      ex.tasks.hasFn idx = true) : (ex.finish cfg result).Inv cfg := by
  rw [Executor.finish]
  split
  · exact h
  · next idx hexecuting =>
    obtain ⟨hplaced, -⟩ := h.executing_placed hexecuting
    have hmem : idx ∈ idx :: { ex with executing := none }.places := mem_cons_self
    cases result with
    | running =>
      exact pushReady_inv (h.pool.write idx (.reschedule .running))
        (hplaced.write hmem fun _ _ ↦ FutSchedule.running_ne_suspended) h.overflows
    | ready =>
      obtain ⟨slot, hslot, -⟩ := hplaced.occupied idx hmem
      exact ⟨h.pool.removeAt hslot, hplaced.removeAt, h.overflows⟩
    | sleeping wakeUpTime =>
      exact pushSleeping_inv (h.pool.write idx (.reschedule (.sleeping wakeUpTime)))
        (hplaced.write hmem fun _ _ ↦ FutSchedule.sleeping_ne_suspended wakeUpTime) h.overflows
    | suspended =>
      exact ⟨h.pool.write idx (.reschedule .suspended),
        hplaced.suspend (hresult rfl idx hexecuting), h.overflows⟩

end Calls

/-! ### Runs that cancel no suspended task -/

/-- The condition on a call: the id of a new task is not the id of one that is in the pool, no
suspended task is cancelled, and a task that was cancelled while it was executed does not suspend
itself. A task asks to be woken no earlier than it returns, at a time that fits into a schedule. -/
def Allowed (cfg : ExecutorConfig) (ex : Executor) : Op → Prop
  | .spawn _ => ex.tasks.getIter cfg.maxTasks ex.spawnId = none
  | .cancel id => ∀ idx, ex.tasks.getIter cfg.maxTasks id = some idx →
      (ex.tasks.schedule idx).status ≠ .suspended
  | .resume _ | .spin _ => True
  | .finish _ .suspended => ∀ idx, ex.executing = some idx → ex.tasks.hasFn idx = true
  | .finish now (.sleeping wakeUpTime) => now ≤ wakeUpTime ∧ wakeUpTime < wakeUpRange
  | .finish _ .running | .finish _ .ready => True

/-- The states of the runs whose calls meet a condition -/
inductive Reached (cfg : ExecutorConfig) (P : Executor → Op → Prop) : Executor → Prop where
  | new : Reached cfg P (new cfg)
  | step {ex : Executor} {op : Op} (h : Reached cfg P ex) (hop : ex.WellFormed op) (hP : P ex op) :
      Reached cfg P (ex.step cfg op)

variable {cfg : ExecutorConfig} {ex : Executor}

theorem Inv.step (h : ex.Inv cfg) {op : Op} (hop : ex.WellFormed op) (hallowed : ex.Allowed cfg op) :
    (ex.step cfg op).Inv cfg := by
  cases op with
  | spawn hasFn => exact h.spawn hasFn hallowed
  | cancel id => exact h.cancelFut hallowed
  | resume id => exact h.resumeSuspendedFut id
  | spin now => exact h.spin hop now
  | finish now result => exact h.finish fun hsuspended ↦ by subst hsuspended; exact hallowed

theorem Reached.inv (h : Reached cfg (Allowed cfg) ex) : ex.Inv cfg := by
  induction h with
  | new => exact new_inv cfg
  | step _ hop hallowed ih => exact ih.step hop hallowed

/-! ### What the invariant says -/

/-- The task in a slot waits for its handle to resume it. -/
def AwaitsResume (cfg : ExecutorConfig) (ex : Executor) (idx : ℕ) (slot : FutSlot) : Prop :=
  slot.data.schedule.status = .suspended ∧ slot.data.hasFn = true ∧
    (ex.resumeSuspendedFut cfg slot.id).2 = true ∧ ex.tasks.getIter cfg.maxTasks slot.id = some idx

/-- Every occupied slot is in exactly one place, nothing else is in a place, and every push found
room. -/
structure Sound (cfg : ExecutorConfig) (ex : Executor) : Prop where
  inOnePlace : ∀ idx slot, ex.tasks.slots idx = some slot →
    (ex.places.count idx = 1 ∧ ¬ AwaitsResume cfg ex idx slot) ∨
      (ex.places.count idx = 0 ∧ AwaitsResume cfg ex idx slot)
  occupied : ∀ idx ∈ ex.places, (ex.tasks.slots idx).isSome = true
  noOverflow : ex.overflows = 0

theorem Inv.sound (h : ex.Inv cfg) : ex.Sound cfg where
  inOnePlace idx slot hslot := by
    by_cases hmem : idx ∈ ex.places
    · refine .inl ⟨count_eq_one_of_mem h.placed.nodup hmem, fun hawaits ↦ ?_⟩
      obtain ⟨slot', hslot', hstatus⟩ := h.placed.occupied idx hmem
      obtain rfl := some.inj (hslot.symm.trans hslot')
      exact hstatus hawaits.1
    · obtain ⟨hstatus, hfn⟩ := h.placed.suspended idx slot hslot hmem
      have hiter := h.pool.getIter hslot
      refine .inr ⟨count_eq_zero.mpr hmem, hstatus, hfn, ?_, hiter⟩
      have hschedule : (ex.tasks.schedule idx).status = .suspended := by
        rw [FutPool.schedule, hslot]
        exact hstatus
      rw [Executor.resumeSuspendedFut, if_neg (h.pool.id_ne_zero idx slot hslot), hiter]
      exact congrArg Prod.snd (if_neg (not_not.mpr hschedule))
  occupied idx hidx := by
    obtain ⟨slot, hslot, -⟩ := h.placed.occupied idx hidx
    rw [hslot]
    rfl
  noOverflow := h.overflows

end Executor

end ZenohPico.Runtime
