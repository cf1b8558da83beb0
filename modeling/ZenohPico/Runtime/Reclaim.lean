import ZenohPico.Runtime.Executor

/-!
The slots of cancelled tasks (`src/runtime/executor.c`). A task that is cancelled stays in the
deque or the queue until it is met there. The wake-up time of a sleeping task falls to 0 with its
cancellation, which leaves the queue out of order; still, once the clock is past the wake-up times
of the tasks that slept when it was cancelled, a bounded number of spins frees its slot
(`Executor.Reached.reclaims`).
-/

open List Option

namespace ZenohPico.Runtime

open Foundations

variable {more : List ℕ}

namespace Executor

/-! ### How far a cancelled task is from being met -/

/-- A cancelled task is in the deque, or in the queue on a path of tasks that wake up by a time. -/
structure Tracked (latest : ℕ) (ex : Executor) (idx : ℕ) : Prop where
  cancelled : ex.tasks.hasFn idx = false
  queued : idx ∈ ex.readyTasks ∨ PathBound ex.tasks.wakeUp latest ex.sleepingTasks idx

/-- The tasks that sleep until some time and are not cancelled -/
def sleepersBy (latest : ℕ) (ex : Executor) : ℕ :=
  ex.sleepingTasks.countP fun idx ↦ ex.tasks.hasFn idx && decide (ex.tasks.wakeUp idx ≤ latest)

/-- The cancelled tasks of the deque -/
def cancelledReady (ex : Executor) : ℕ := ex.readyTasks.countP fun idx ↦ !ex.tasks.hasFn idx

/-- For a task of the deque, its position. In front of a task of the queue there are the sleepers,
and each spin that does not call one of them leaves one more cancelled task in the deque. -/
def rank (cfg : ExecutorConfig) (latest : ℕ) (ex : Executor) (idx : ℕ) : ℕ :=
  if idx ∈ ex.readyTasks then ex.readyTasks.idxOf idx + 1
  else 2 * ex.sleepersBy latest + (cfg.maxTasks - ex.cancelledReady) + cfg.maxTasks + 1

variable {cfg : ExecutorConfig} {ex ex' : Executor} {latest idx : ℕ}

theorem Inv.length_le (h : ex.Inv cfg) :
    ex.readyTasks.length + ex.sleepingTasks.length ≤ cfg.maxTasks := by
  have hlen := h.placed.apart.length_le h.pool
  rw [places, length_append, length_append] at hlen
  omega

theorem rank_le (h : ex.Inv cfg) (latest idx : ℕ) : ex.rank cfg latest idx ≤ 4 * cfg.maxTasks + 1 := by
  have hlen := h.length_le
  rw [rank]
  split
  · next hmem =>
    have hpos := idxOf_lt_length_of_mem hmem
    omega
  · have hsleepers : ex.sleepersBy latest ≤ ex.sleepingTasks.length := countP_le_length
    omega

/-- Tasks may join the deque, and others may be cancelled. -/
theorem rank_le_of_keeps (hready : ex'.readyTasks = ex.readyTasks ++ more)
    (hnot : idx ∉ ex.readyTasks → idx ∉ more)
    (hfn : ∀ i ∈ ex.readyTasks, ex'.tasks.hasFn i = true → ex.tasks.hasFn i = true)
    (hsleepers : ex'.sleepersBy latest ≤ ex.sleepersBy latest) :
    ex'.rank cfg latest idx ≤ ex.rank cfg latest idx := by
  rw [rank, rank, hready]
  by_cases hmem : idx ∈ ex.readyTasks
  · rw [if_pos hmem, if_pos (mem_append_left _ hmem), idxOf_append_of_mem hmem]
  · rw [if_neg hmem, if_neg (by rw [mem_append]; exact not_or.mpr ⟨hmem, hnot hmem⟩)]
    have hcancelled : ex.cancelledReady ≤ ex'.cancelledReady := by
      rw [cancelledReady, cancelledReady, hready, countP_append]
      refine (countP_mono_left fun i hi hcancel ↦ ?_).trans (Nat.le_add_right _ _)
      rw [Bool.not_eq_true', ← Bool.not_eq_true] at hcancel ⊢
      exact fun htrue ↦ hcancel (hfn i hi htrue)
    omega

end Executor

/-- The task in a slot is as it was, or was cancelled. -/
def FutPool.Eases (pool pool' : FutPool) (idx : ℕ) : Prop :=
  pool'.slots idx = pool.slots idx ∨ (pool'.hasFn idx = false ∧ pool'.wakeUp idx ≤ pool.wakeUp idx)

section Eases

variable {pool pool' : FutPool} {idx : ℕ}

theorem FutPool.hasFn_congr (h : pool'.slots idx = pool.slots idx) :
    pool'.hasFn idx = pool.hasFn idx := by rw [FutPool.hasFn, h, FutPool.hasFn]

theorem FutPool.wakeUp_congr (h : pool'.slots idx = pool.slots idx) :
    pool'.wakeUp idx = pool.wakeUp idx := by
  rw [FutPool.wakeUp, FutPool.schedule, h, FutPool.wakeUp, FutPool.schedule]

theorem FutPool.Eases.hasFn (h : pool.Eases pool' idx) (hfn : pool'.hasFn idx = true) :
    pool.hasFn idx = true := by
  rcases h with hsame | ⟨hcancelled, -⟩
  · rwa [← FutPool.hasFn_congr hsame]
  · rw [hcancelled] at hfn
    cases hfn

theorem FutPool.Eases.wakeUp_le (h : pool.Eases pool' idx) : pool'.wakeUp idx ≤ pool.wakeUp idx := by
  rcases h with hsame | ⟨-, hle⟩
  · exact (FutPool.wakeUp_congr hsame).le
  · exact hle

theorem FutPool.Eases.hasFn_eq_false (h : pool.Eases pool' idx) (hfn : pool.hasFn idx = false) :
    pool'.hasFn idx = false := by
  rw [← Bool.not_eq_true] at hfn ⊢
  exact fun htrue ↦ hfn (h.hasFn htrue)

theorem FutPool.eases_write_of_ne (pool : FutPool) {i : ℕ} (change : FutData → FutData)
    (h : i ≠ idx) : pool.Eases (pool.write idx change) i :=
  .inl (FutPool.write_slots_of_ne pool change h)

theorem FutPool.eases_destroy (pool : FutPool) (idx i : ℕ) :
    pool.Eases (pool.write idx FutData.destroy) i := by
  by_cases h : i = idx
  · subst h
    right
    rw [FutPool.hasFn, FutPool.wakeUp, FutPool.schedule, FutPool.write_slots_self]
    cases pool.slots i with
    | none => exact ⟨rfl, Nat.zero_le _⟩
    | some slot => exact ⟨rfl, Nat.zero_le _⟩
  · exact FutPool.eases_write_of_ne pool _ h

end Eases

namespace Executor

variable {cfg : ExecutorConfig} {ex ex' : Executor} {latest idx : ℕ}

theorem Tracked.mem (h : Tracked latest ex idx) : idx ∈ ex.readyTasks ++ ex.sleepingTasks :=
  h.queued.elim (mem_append_left _) fun hpath ↦ mem_append_right _ hpath.mem

theorem sleepersBy_le (hsleeping : ex'.sleepingTasks = ex.sleepingTasks)
    (heases : ∀ i ∈ ex.sleepingTasks, ex.tasks.Eases ex'.tasks i) :
    ex'.sleepersBy latest ≤ ex.sleepersBy latest := by
  rw [sleepersBy, sleepersBy, hsleeping]
  refine countP_mono_left fun i hi hboth ↦ ?_
  rw [Bool.and_eq_true, decide_eq_true_iff] at hboth ⊢
  rcases heases i hi with hsame | ⟨hcancelled, -⟩
  · rwa [← FutPool.hasFn_congr hsame, ← FutPool.wakeUp_congr hsame]
  · rw [hcancelled] at hboth
    cases hboth.1

/-- What a call leaves of the tasks in the deque and the queue -/
structure Keeps (ex ex' : Executor) (more : List ℕ) : Prop where
  ready : ex'.readyTasks = ex.readyTasks ++ more
  sleeping : ex'.sleepingTasks = ex.sleepingTasks
  fresh : ∀ i ∈ more, i ∉ ex.readyTasks ++ ex.sleepingTasks
  eases : ∀ i ∈ ex.readyTasks ++ ex.sleepingTasks, ex.tasks.Eases ex'.tasks i

theorem Keeps.tracked (hkeeps : Keeps ex ex' more) (h : Tracked latest ex idx) :
    Tracked latest ex' idx where
  cancelled := (hkeeps.eases idx h.mem).hasFn_eq_false h.cancelled
  queued := by
    rw [hkeeps.ready, hkeeps.sleeping]
    rcases h.queued with hready | hpath
    · exact .inl (mem_append_left _ hready)
    · exact .inr (hpath.mono fun i hi ↦ (hkeeps.eases i (mem_append_right _ hi)).wakeUp_le)

theorem Keeps.rank_le (hkeeps : Keeps ex ex' more) (h : Tracked latest ex idx) :
    ex'.rank cfg latest idx ≤ ex.rank cfg latest idx :=
  rank_le_of_keeps hkeeps.ready (fun _ hmore ↦ hkeeps.fresh idx hmore h.mem)
    (fun i hi ↦ (hkeeps.eases i (mem_append_left _ hi)).hasFn)
    (sleepersBy_le hkeeps.sleeping fun i hi ↦ hkeeps.eases i (mem_append_right _ hi))

theorem Keeps.refl (ex : Executor) : Keeps ex ex [] :=
  ⟨(append_nil _).symm, rfl, fun _ hi ↦ absurd hi not_mem_nil, fun _ _ ↦ .inl rfl⟩

/-! ### The calls -/

theorem Inv.spawn_keeps (h : ex.Inv cfg) (hasFn : Bool)
    (hfresh : ex.tasks.getIter cfg.maxTasks ex.spawnId = none) :
    ∃ more, Keeps ex (ex.spawn cfg hasFn).1 more := by
  rw [Executor.spawn]
  rcases h.pool.insert ex.spawnId_ne_zero hfresh ⟨hasFn, .running⟩ with
    hfull | ⟨new, free, hnone, hinsert, hpool⟩
  · rw [hfull]
    exact ⟨[], (Keeps.refl ex).ready, rfl, (Keeps.refl ex).fresh, (Keeps.refl ex).eases⟩
  · have hnew : new ∉ ex.readyTasks ++ ex.sleepingTasks := by
      intro hmem
      obtain ⟨slot, hslot, -⟩ := h.placed.occupied new (mem_append_left _ hmem)
      rw [hnone] at hslot
      cases hslot
    have hplaced : FutPool.Placed
        ⟨Function.update ex.tasks.slots new (some ⟨ex.spawnId, ⟨hasFn, .running⟩⟩), free⟩
        (new :: ex.places) := h.placed.insert hnone FutSchedule.running_ne_suspended free
    rw [hinsert]
    dsimp only
    rw [pushReady_eq hpool hplaced.apart]
    refine ⟨[new], rfl, rfl, ?_, ?_⟩
    · intro i hi
      rwa [mem_singleton.mp hi]
    · intro i hi
      exact .inl (Function.update_of_ne (ne_of_mem_of_not_mem hi hnew) ..)

theorem cancelFut_keeps (cfg : ExecutorConfig) (ex : Executor) (id : ℕ) :
    Keeps ex (ex.cancelFut cfg id).1 [] := by
  rw [cancelFut]
  split
  · exact .refl ex
  split
  · exact .refl ex
  · next found _ =>
    exact ⟨(Keeps.refl ex).ready, rfl, (Keeps.refl ex).fresh,
      fun i _ ↦ ex.tasks.eases_destroy found i⟩

theorem Inv.resume_keeps (h : ex.Inv cfg) (id : ℕ) :
    ∃ more, Keeps ex (ex.resumeSuspendedFut cfg id).1 more := by
  rw [Executor.resumeSuspendedFut]
  split
  · exact ⟨[], .refl ex⟩
  split
  · exact ⟨[], .refl ex⟩
  · next found hfound =>
    split
    · exact ⟨[], .refl ex⟩
    · next hsuspended =>
      have hplaced := h.resume_placed hfound hsuspended
      have hnot : found ∉ ex.readyTasks ++ ex.sleepingTasks := fun hmem ↦
        (nodup_cons.mp hplaced.nodup).1 (mem_append_left _ hmem)
      dsimp only
      rw [pushReady_eq (h.pool.write found (.reschedule .ready)) hplaced.apart]
      refine ⟨[found], rfl, rfl, ?_, ?_⟩
      · intro i hi
        rwa [mem_singleton.mp hi]
      · intro i hi
        exact ex.tasks.eases_write_of_ne _ (ne_of_mem_of_not_mem hi hnot)

/-- The return of a task, where it does not put the task to sleep -/
theorem Inv.finish_keeps (h : ex.Inv cfg) {result : FutFnResult}
    (hawake : ∀ wakeUpTime, result ≠ .sleeping wakeUpTime) :
    ∃ more, Keeps ex (ex.finish cfg result) more := by
  rw [Executor.finish]
  split
  · exact ⟨[], .refl ex⟩
  · next task hexecuting =>
    obtain ⟨hplaced, hnot⟩ := h.executing_placed hexecuting
    have hwrite : ∀ change, ∀ i ∈ ex.readyTasks ++ ex.sleepingTasks,
        ex.tasks.Eases (ex.tasks.write task change) i := fun change i hi ↦
      ex.tasks.eases_write_of_ne change (ne_of_mem_of_not_mem hi hnot)
    cases result with
    | running =>
      dsimp only
      rw [pushReady_eq (h.pool.write task (.reschedule .running))
        (hplaced.apart.write task fun _ _ ↦ FutSchedule.running_ne_suspended)]
      refine ⟨[task], rfl, rfl, fun i hi ↦ ?_, hwrite _⟩
      rwa [mem_singleton.mp hi]
    | ready =>
      refine ⟨[], (Keeps.refl ex).ready, rfl, (Keeps.refl ex).fresh, fun i hi ↦ .inl ?_⟩
      exact ex.tasks.removeAt_slots_of_ne (ne_of_mem_of_not_mem hi hnot)
    | sleeping wakeUpTime => exact absurd rfl (hawake wakeUpTime)
    | suspended => exact ⟨[], (Keeps.refl ex).ready, rfl, (Keeps.refl ex).fresh, hwrite _⟩

/-- A sleeper that does not wake up by the time that counts is not in front of anything. -/
theorem rank_pushSleeping_le {task : ℕ} (hlate : latest < ex.tasks.wakeUp task) (idx : ℕ) :
    { ex with sleepingTasks := heapPush ex.tasks.wakeUp ex.sleepingTasks task }.rank cfg latest
      idx ≤ ex.rank cfg latest idx := by
  refine rank_le_of_keeps (append_nil _).symm (fun _ ↦ not_mem_nil)
    (fun _ _ hfn ↦ hfn) ?_
  rw [sleepersBy, sleepersBy, (heapPush_perm ..).countP_eq, countP_cons, if_neg]
  · exact le_rfl
  · simp [hlate]

variable {now taken : ℕ}

/-- A task that goes to sleep leaves the others where they are; it does not wake up before the
time at which it returned. -/
theorem Inv.finish_sleeping (h : ex.Inv cfg) (hqueued : Tracked latest ex idx) {wakeUpTime : ℕ}
    (hwakeUp : now ≤ wakeUpTime) (hrange : wakeUpTime < wakeUpRange) :
    Tracked latest (ex.finish cfg (.sleeping wakeUpTime)) idx ∧
      (latest < now → (ex.finish cfg (.sleeping wakeUpTime)).rank cfg latest idx ≤
        ex.rank cfg latest idx) := by
  rw [Executor.finish]
  split
  · exact ⟨hqueued, fun _ ↦ le_rfl⟩
  · next task hexecuting =>
    obtain ⟨hplaced, hnot⟩ := h.executing_placed hexecuting
    have hkeeps : Keeps ex
        ({ ex with executing := none }.write task (.reschedule (.sleeping wakeUpTime))) [] :=
      ⟨(Keeps.refl ex).ready, rfl, (Keeps.refl ex).fresh,
        fun i hi ↦ ex.tasks.eases_write_of_ne _ (ne_of_mem_of_not_mem hi hnot)⟩
    have htracked := hkeeps.tracked hqueued
    dsimp only
    rw [pushSleeping_eq (h.pool.write task (.reschedule (.sleeping wakeUpTime)))
      (hplaced.apart.write task fun _ _ ↦ FutSchedule.sleeping_ne_suspended wakeUpTime)]
    refine ⟨⟨htracked.cancelled, htracked.queued.imp_right fun hpath ↦ hpath.push task⟩,
      fun hlate ↦ le_trans (rank_pushSleeping_le ?_ idx) (hkeeps.rank_le hqueued)⟩
    obtain ⟨slot, hslot, -⟩ := hplaced.occupied task mem_cons_self
    have hwake : ((ex.tasks.write task (.reschedule (.sleeping wakeUpTime))).wakeUp task) =
        wakeUpTime := by
      rw [FutPool.wakeUp, FutPool.schedule, FutPool.write_slots_self, hslot]
      exact Nat.mod_eq_of_lt hrange
    exact (hlate.trans_le hwakeUp).trans_eq hwake.symm

/-! ### Spinning -/

/-- A cancelled task that is in the queue by a time is due after it. -/
theorem Tracked.due (hqueued : Tracked latest ex idx) (hnot : idx ∉ ex.readyTasks)
    (hlate : latest < now) : ∃ due sleeping,
      heapPop ex.tasks.wakeUp ex.sleepingTasks = some (due, sleeping) ∧
        ex.tasks.wakeUp due < now := by
  have hpath := hqueued.queued.resolve_left hnot
  obtain ⟨due, hdue⟩ : ∃ due, ex.sleepingTasks.head? = some due := by
    cases hsleeping : ex.sleepingTasks with
    | nil => rw [hsleeping] at hpath; exact absurd hpath.mem not_mem_nil
    | cons due _ => exact ⟨due, rfl⟩
  obtain ⟨sleeping, hpop⟩ : ∃ sleeping,
      heapPop ex.tasks.wakeUp ex.sleepingTasks = some (due, sleeping) := heapPop_of_head hdue
  exact ⟨due, sleeping, hpop, (hpath.root_le hdue).trans_lt hlate⟩

theorem hasFn_reschedule (pool : FutPool) (task : ℕ) (schedule : FutSchedule) (i : ℕ) :
    (pool.write task (.reschedule schedule)).hasFn i = pool.hasFn i := by
  by_cases h : i = task
  · subst h
    rw [FutPool.hasFn, FutPool.write_slots_self, FutPool.hasFn]
    cases pool.slots i with
    | none => rfl
    | some slot => rfl
  · exact FutPool.hasFn_congr (FutPool.write_slots_of_ne pool _ h)

theorem rank_of_mem (hmem : idx ∈ ex.readyTasks) :
    ex.rank cfg latest idx = ex.readyTasks.idxOf idx + 1 := if_pos hmem

theorem rank_of_not_mem (hmem : idx ∉ ex.readyTasks) : ex.rank cfg latest idx =
      2 * ex.sleepersBy latest + (cfg.maxTasks - ex.cancelledReady) + cfg.maxTasks + 1 :=
  if_neg hmem

variable {sleeping rest : List ℕ}

/-- The sleepers that wake up by a time, with the first one of them -/
theorem sleepersBy_of_pop {due : ℕ}
    (hpop : heapPop ex.tasks.wakeUp ex.sleepingTasks = some (due, sleeping))
    (hdue : ex.tasks.wakeUp due ≤ latest) : ex.sleepersBy latest =
      { ex with sleepingTasks := sleeping }.sleepersBy latest +
        (if ex.tasks.hasFn due = true then 1 else 0) := by
  rw [sleepersBy, (heapPop_perm hpop).2.symm.countP_eq, countP_cons, sleepersBy]
  simp [hdue]

/-- A task of the deque comes closer when another one is taken. -/
theorem rank_lt_of_mem (hready : ex.readyTasks = taken :: rest) (hne : taken ≠ idx)
    (hmem : idx ∈ rest) (hafter : ex'.readyTasks = rest ++ more) :
    ex'.rank cfg latest idx < ex.rank cfg latest idx := by
  rw [rank_of_mem (hafter ▸ mem_append_left more hmem),
    rank_of_mem (hready ▸ mem_cons_of_mem taken hmem), hafter, hready,
    idxOf_append_of_mem hmem, idxOf_cons_ne rest hne]
  omega

/-- The sleeper that is due is called where nothing is ready. -/
theorem rank_of_called {due : ℕ} (hready : ex.readyTasks = [])
    (hpop : heapPop ex.tasks.wakeUp ex.sleepingTasks = some (due, sleeping))
    (hdue : ex.tasks.wakeUp due ≤ latest) :
    { ex with sleepingTasks := sleeping }.rank cfg latest idx ≤ ex.rank cfg latest idx ∧
      (ex.tasks.hasFn due = true →
        { ex with sleepingTasks := sleeping }.rank cfg latest idx < ex.rank cfg latest idx) := by
  have hnot : idx ∉ ex.readyTasks := hready ▸ not_mem_nil
  have hafter : { ex with sleepingTasks := sleeping }.rank cfg latest idx =
      2 * { ex with sleepingTasks := sleeping }.sleepersBy latest +
        (cfg.maxTasks - ex.cancelledReady) + cfg.maxTasks + 1 := rank_of_not_mem hnot
  rw [hafter, rank_of_not_mem hnot, sleepersBy_of_pop hpop hdue]
  refine ⟨by omega, fun hfn ↦ ?_⟩
  rw [if_pos hfn]
  omega

/-- The state in which the sleeper that is due was moved to the end of the deque -/
def moved (ex : Executor) (due : ℕ) (rest sleeping : List ℕ) : Executor :=
  { ex with
    readyTasks := rest ++ [due]
    sleepingTasks := sleeping
    tasks := ex.tasks.write due (.reschedule .ready) }

theorem moved_sleepersBy {due : ℕ} (hdue : due ∉ sleeping) :
    (ex.moved due rest sleeping).sleepersBy latest =
      { ex with sleepingTasks := sleeping }.sleepersBy latest := by
  rw [sleepersBy, sleepersBy]
  refine countP_congr fun i hi ↦ ?_
  have hslots := FutPool.write_slots_of_ne ex.tasks (.reschedule .ready)
    (ne_of_mem_of_not_mem hi hdue)
  rw [moved, FutPool.hasFn_congr hslots, FutPool.wakeUp_congr hslots]

theorem moved_cancelledReady (ex : Executor) (due : ℕ) (rest sleeping : List ℕ) :
    (ex.moved due rest sleeping).cancelledReady = { ex with readyTasks := rest }.cancelledReady +
        (if ex.tasks.hasFn due = true then 0 else 1) := by
  rw [cancelledReady, moved, countP_append, countP_singleton, cancelledReady]
  simp only [hasFn_reschedule]
  cases ex.tasks.hasFn due <;> rfl

/-- The sleeper that is due is moved, and a ready task is taken. -/
theorem rank_of_moved {due : ℕ} (hne : idx ≠ due) (hnot : idx ∉ ex.readyTasks)
    (hready : ex.readyTasks = taken :: rest)
    (hpop : heapPop ex.tasks.wakeUp ex.sleepingTasks = some (due, sleeping)) (hdue : due ∉ sleeping)
    (hlow : ex.tasks.wakeUp due ≤ latest) (hlen : ex.readyTasks.length ≤ cfg.maxTasks) :
    (ex.moved due rest sleeping).rank cfg latest idx ≤ ex.rank cfg latest idx ∧
      (ex.tasks.hasFn taken = true →
        (ex.moved due rest sleeping).rank cfg latest idx < ex.rank cfg latest idx) := by
  have hnot' : idx ∉ (ex.moved due rest sleeping).readyTasks := by
    rw [moved, mem_append, mem_singleton, not_or]
    exact ⟨fun hmem ↦ hnot (hready ▸ mem_cons_of_mem taken hmem), hne⟩
  have hcancelled : ex.cancelledReady = { ex with readyTasks := rest }.cancelledReady +
      (if ex.tasks.hasFn taken = true then 0 else 1) := by
    rw [cancelledReady, hready, countP_cons, cancelledReady]
    cases ex.tasks.hasFn taken <;> rfl
  have hrest : { ex with readyTasks := rest }.cancelledReady ≤ rest.length :=
    countP_le_length
  rw [rank_of_not_mem hnot, rank_of_not_mem hnot', moved_sleepersBy hdue, moved_cancelledReady,
    sleepersBy_of_pop hpop hlow, hcancelled]
  rw [hready, length_cons] at hlen
  refine ⟨?_, fun hfn ↦ ?_⟩
  · split <;> split <;> omega
  · rw [if_pos hfn]
    split <;> omega

variable {status : ExecutorStatus}

/-- One task is taken, and it is another one than the cancelled one that is tracked: this one
stays tracked, and it comes closer if the task is to be called. -/
theorem Inv.next_tracked (h : ex.Inv cfg) (hidle : ex.executing = none)
    (hqueued : Tracked latest ex idx) (hnext : ex.getNextFut cfg now = (ex', status, some taken))
    (hne : taken ≠ idx) : Tracked latest ex' idx ∧ (latest < now →
      ex'.rank cfg latest idx ≤ ex.rank cfg latest idx ∧
        (ex'.tasks.hasFn taken = true → ex'.rank cfg latest idx < ex.rank cfg latest idx)) := by
  have hnodup : (ex.readyTasks ++ ex.sleepingTasks).Nodup := by
    have hnodup := h.placed.nodup
    rwa [places, hidle, toList_none, append_nil] at hnodup
  have hlen := h.length_le
  rcases getNextFut_some hnext with ⟨rest, hready, rfl, hlater⟩ | ⟨hready, sleeping, hpop, rfl⟩ |
    ⟨rest, due, sleeping, hready, hpop, rfl⟩
  · -- the first task of the deque, where nothing is due
    have hrest : idx ∈ ex.readyTasks → idx ∈ rest := fun hmem ↦
      (mem_cons.mp (hready ▸ hmem)).resolve_left hne.symm
    refine ⟨⟨hqueued.cancelled, hqueued.queued.imp_left hrest⟩, fun hlate ↦ ?_⟩
    by_cases hmem : idx ∈ ex.readyTasks
    · have hlt : { ex with readyTasks := rest }.rank cfg latest idx < ex.rank cfg latest idx :=
        rank_lt_of_mem hready hne (hrest hmem) (append_nil rest).symm
      exact ⟨hlt.le, fun _ ↦ hlt⟩
    · obtain ⟨due, sleeping, hpop, hdue⟩ := hqueued.due hmem hlate
      exact absurd hdue (hlater due sleeping hpop)
  · -- the sleeper that is due, where nothing is ready
    have hpath := hqueued.queued.resolve_left (hready ▸ not_mem_nil)
    exact ⟨⟨hqueued.cancelled, .inr (hpath.pop hpop hne.symm)⟩, fun _ ↦
      rank_of_called hready hpop (hpath.root_le (heapPop_perm hpop).1)⟩
  · -- the first task of the deque, where a sleeper is due
    have hperm := (heapPop_perm hpop).2
    have hsleeping := (nodup_append.mp hnodup).2.1
    have hduenot : due ∉ sleeping := (nodup_cons.mp (hperm.nodup_iff.mpr hsleeping)).1
    have hpush : ({ ex with sleepingTasks := sleeping, readyTasks := rest }.pushReady cfg due).write
        due (FutData.reschedule .ready) = ex.moved due rest sleeping := by
      rw [hready, length_cons] at hlen
      rw [pushReady_of_lt (by dsimp only; omega)]
      rfl
    rw [hpush]
    have hrest : idx ∈ ex.readyTasks → idx ∈ rest := fun hmem ↦
      (mem_cons.mp (hready ▸ hmem)).resolve_left hne.symm
    have hcancelled : (ex.moved due rest sleeping).tasks.hasFn idx = false :=
      (hasFn_reschedule ..).trans hqueued.cancelled
    by_cases hmem : idx ∈ ex.readyTasks
    · have hlt : (ex.moved due rest sleeping).rank cfg latest idx < ex.rank cfg latest idx :=
        rank_lt_of_mem hready hne (hrest hmem) rfl
      exact ⟨⟨hcancelled, .inl (mem_append_left _ (hrest hmem))⟩, fun _ ↦
        ⟨hlt.le, fun _ ↦ hlt⟩⟩
    · have hpath := hqueued.queued.resolve_left hmem
      by_cases hdue : idx = due
      · subst hdue
        have hin : idx ∈ (ex.moved idx rest sleeping).readyTasks := by simp [moved]
        refine ⟨⟨hcancelled, .inl hin⟩, fun _ ↦ ?_⟩
        have hlt : (ex.moved idx rest sleeping).rank cfg latest idx < ex.rank cfg latest idx := by
          have hpos := idxOf_lt_length_of_mem hin
          rw [rank_of_mem hin, rank_of_not_mem hmem]
          rw [hready, length_cons] at hlen
          have hlength : (ex.moved idx rest sleeping).readyTasks.length = rest.length + 1 := by
            simp [moved]
          omega
        exact ⟨hlt.le, fun _ ↦ hlt⟩
      · have hleft : PathBound (ex.moved due rest sleeping).tasks.wakeUp latest sleeping idx :=
          (hpath.pop hpop hdue).mono fun i hi ↦ (FutPool.wakeUp_congr
            (FutPool.write_slots_of_ne ex.tasks _ (ne_of_mem_of_not_mem hi hduenot))).le
        refine ⟨⟨hcancelled, .inr hleft⟩, fun _ ↦ ?_⟩
        obtain ⟨hle, hlt⟩ := rank_of_moved hdue hmem hready hpop hduenot
          (hpath.root_le (heapPop_perm hpop).1) ((Nat.le_add_right ..).trans hlen)
        exact ⟨hle, fun hfn ↦ hlt ((hasFn_reschedule ..).symm.trans hfn)⟩

/-! ### One spin -/

@[simp] theorem pushReady_tasks (cfg : ExecutorConfig) (ex : Executor) (task : ℕ) :
    (ex.pushReady cfg task).tasks = ex.tasks := by
  rw [pushReady]
  split <;> rfl

theorem getNextFut_hasFn (hnext : ex.getNextFut cfg now = (ex', status, some taken)) (i : ℕ) :
    ex'.tasks.hasFn i = ex.tasks.hasFn i := by
  rcases getNextFut_some hnext with ⟨rest, -, rfl, -⟩ | ⟨-, sleeping, -, rfl⟩ |
    ⟨rest, due, sleeping, -, -, rfl⟩
  · rfl
  · rfl
  · rw [write, pushReady_tasks]
    exact hasFn_reschedule ..

theorem getNextFut_slots_none (hnext : ex.getNextFut cfg now = (ex', status, some taken))
    (hnone : ex.tasks.slots idx = none) : ex'.tasks.slots idx = none := by
  rcases getNextFut_some hnext with ⟨rest, -, rfl, -⟩ | ⟨-, sleeping, -, rfl⟩ |
    ⟨rest, due, sleeping, -, -, rfl⟩
  · exact hnone
  · exact hnone
  · rw [write, pushReady_tasks]
    exact FutPool.write_slots_eq_none.mpr hnone

/-- A slot that was freed stays free for the rest of the spin. -/
theorem spin_slots_none (now : ℕ) (hnone : ex.tasks.slots idx = none) :
    (ex.spin cfg now).1.tasks.slots idx = none := by
  induction ex using spin.induct cfg now with
  | case1 ex after status hnext =>
    rw [spin_idle hnext, (getNextFut_none hnext).1]
    exact hnone
  | case2 ex after status taken hnext hfn ih =>
    rw [spin_some hnext, if_pos hfn]
    refine ih ?_
    by_cases h : idx = taken
    · rw [h]
      exact after.tasks.removeAt_slots_self taken
    · exact (after.tasks.removeAt_slots_of_ne h).trans (getNextFut_slots_none hnext hnone)
  | case3 ex after status taken hnext hfn hstatus =>
    have hafter := getNextFut_slots_none hnext hnone
    rw [spin_some hnext, if_neg hfn, if_pos hstatus]
    exact hafter
  | case4 ex after status taken hnext hfn hstatus ih =>
    rw [spin_some hnext, if_neg hfn, if_neg hstatus]
    exact ih (getNextFut_slots_none hnext hnone)

/-- A spin frees the slot of a cancelled task, or comes closer to it. -/
theorem Inv.spin_tracked (h : ex.Inv cfg) (hidle : ex.executing = none)
    (hqueued : Tracked latest ex idx) (now : ℕ) : (ex.spin cfg now).1.tasks.slots idx = none ∨
      (Tracked latest (ex.spin cfg now).1 idx ∧ (latest < now →
        (ex.spin cfg now).1.rank cfg latest idx < ex.rank cfg latest idx)) := by
  induction ex using spin.induct cfg now with
  | case1 ex after status hnext =>
    obtain ⟨rfl, hready, hlater⟩ := getNextFut_none hnext
    rw [spin_idle hnext]
    refine .inr ⟨hqueued, fun hlate ↦ ?_⟩
    obtain ⟨due, sleeping, hpop, hdue⟩ := hqueued.due (hready ▸ not_mem_nil) hlate
    exact absurd hdue (hlater due sleeping hpop)
  | case2 ex after status taken hnext hfn ih =>
    obtain ⟨hafter, hinv⟩ := h.getNextFut hidle hnext
    rw [spin_some hnext, if_pos hfn]
    by_cases hne : taken = idx
    · subst hne
      exact .inl (spin_slots_none now (after.tasks.removeAt_slots_self taken))
    · obtain ⟨htracked, hrank⟩ := h.next_tracked hidle hqueued hnext hne
      have hnot : taken ∉ after.readyTasks ++ after.sleepingTasks :=
        (hinv.executing_placed rfl).2
      have hkeeps : Keeps after { after with tasks := after.tasks.removeAt taken } [] :=
        ⟨(Keeps.refl after).ready, rfl, (Keeps.refl after).fresh, fun i hi ↦
          .inl (after.tasks.removeAt_slots_of_ne (ne_of_mem_of_not_mem hi hnot))⟩
      refine (ih (hinv.removeAt hafter) hafter (hkeeps.tracked htracked)).imp_right ?_
      exact fun hspun ↦ ⟨hspun.1, fun hlate ↦
        (hspun.2 hlate).trans_le ((hkeeps.rank_le htracked).trans (hrank hlate).1)⟩
  | case3 ex after status taken hnext hfn hstatus =>
    rw [spin_some hnext, if_neg hfn, if_pos hstatus]
    have hcalled : after.tasks.hasFn taken = true := Bool.eq_true_of_not_eq_false hfn
    have hne : taken ≠ idx := by
      rintro rfl
      exact hfn ((getNextFut_hasFn hnext taken).trans hqueued.cancelled)
    obtain ⟨htracked, hrank⟩ := h.next_tracked hidle hqueued hnext hne
    exact .inr ⟨⟨htracked.cancelled, htracked.queued⟩, fun hlate ↦ (hrank hlate).2 hcalled⟩
  | case4 ex after status taken hnext hfn hstatus ih =>
    exact absurd (h.getNextFut hidle hnext).2.not_suspended hstatus

/-! ### Runs -/

/-- The clock of a call -/
def Op.time? : Op → Option ℕ
  | .spin now | .finish now _ => some now
  | .spawn _ | .cancel _ | .resume _ => none

/-- A spin whose clock is past some time -/
def Op.isSpinAfter (latest : ℕ) : Op → Bool
  | .spin now => latest < now
  | .finish _ _ | .spawn _ | .cancel _ | .resume _ => false

/-- The calls of a run meet a condition. -/
def Along (cfg : ExecutorConfig) (P : Executor → Op → Prop) : List Op → Executor → Prop
  | [], _ => True
  | op :: ops, ex => ex.WellFormed op ∧ P ex op ∧ Along cfg P ops (ex.step cfg op)

/-- Some calls of a run free a slot. -/
def Frees (cfg : ExecutorConfig) (ops : List Op) (ex : Executor) (idx : ℕ) : Prop :=
  ∃ first rest, ops = first ++ rest ∧ (ex.run cfg first).tasks.slots idx = none

theorem Frees.cons {op : Op} {ops : List Op} (h : Frees cfg ops (ex.step cfg op) idx) :
    Frees cfg (op :: ops) ex idx := by
  obtain ⟨first, rest, rfl, hfree⟩ := h
  exact ⟨op :: first, rest, rfl, hfree⟩

variable {ops : List Op}

theorem Frees.of_step {op : Op} (h : (ex.step cfg op).tasks.slots idx = none) :
    Frees cfg (op :: ops) ex idx := ⟨[op], ops, rfl, h⟩

/-- What a call does to a cancelled task: after the time that counts nothing takes it further
away, and a spin takes it closer. -/
theorem Inv.step_tracked (h : ex.Inv cfg) {op : Op} (hop : ex.WellFormed op)
    (hallowed : ex.Allowed cfg op) (hqueued : Tracked latest ex idx) :
    (ex.step cfg op).tasks.slots idx = none ∨ (Tracked latest (ex.step cfg op) idx ∧
      ((∀ now ∈ op.time?, latest < now) →
        (ex.step cfg op).rank cfg latest idx + (if op.isSpinAfter latest then 1 else 0) ≤
          ex.rank cfg latest idx)) := by
  have hkept : ∀ {ex' more}, Keeps ex ex' more → Tracked latest ex' idx ∧
      ex'.rank cfg latest idx + 0 ≤ ex.rank cfg latest idx := fun hkeeps ↦
    ⟨hkeeps.tracked hqueued, hkeeps.rank_le hqueued⟩
  cases op with
  | spawn hasFn =>
    obtain ⟨more, hkeeps⟩ := h.spawn_keeps hasFn hallowed
    exact .inr ⟨(hkept hkeeps).1, fun _ ↦ (hkept hkeeps).2⟩
  | cancel id =>
    have hkeeps := cancelFut_keeps cfg ex id
    exact .inr ⟨(hkept hkeeps).1, fun _ ↦ (hkept hkeeps).2⟩
  | resume id =>
    obtain ⟨more, hkeeps⟩ := h.resume_keeps id
    exact .inr ⟨(hkept hkeeps).1, fun _ ↦ (hkept hkeeps).2⟩
  | spin now =>
    refine (h.spin_tracked hop hqueued now).imp_right fun hspun ↦ ⟨hspun.1, fun htime ↦ ?_⟩
    have hlate : latest < now := htime now rfl
    rw [Op.isSpinAfter, if_pos (decide_eq_true hlate)]
    exact hspun.2 hlate
  | finish now result =>
    right
    by_cases hawake : ∀ wakeUpTime, result ≠ .sleeping wakeUpTime
    · obtain ⟨more, hkeeps⟩ := h.finish_keeps hawake
      exact ⟨(hkept hkeeps).1, fun _ ↦ (hkept hkeeps).2⟩
    · obtain ⟨wakeUpTime, hasleep⟩ := not_forall.mp hawake
      obtain rfl := not_not.mp hasleep
      obtain ⟨htracked, hrank⟩ := h.finish_sleeping hqueued hallowed.1 hallowed.2
      exact ⟨htracked, fun htime ↦ hrank (htime now rfl)⟩

/-- After the time that counts, as many spins as the rank says free the slot. -/
theorem Inv.frees_of_late (h : ex.Inv cfg) (halong : Along cfg (Allowed cfg) ops ex)
    (hqueued : Tracked latest ex idx) (hlate : ∀ op ∈ ops, ∀ now ∈ op.time?, latest < now)
    (hspins : ex.rank cfg latest idx ≤ ops.countP (Op.isSpinAfter latest)) :
    Frees cfg ops ex idx := by
  induction ops generalizing ex with
  | nil =>
    rw [countP_nil, rank] at hspins
    split at hspins <;> omega
  | cons op ops ih =>
    obtain ⟨hop, hallowed, hrest⟩ := halong
    rcases h.step_tracked hop hallowed hqueued with hfree | ⟨htracked, hrank⟩
    · exact .of_step hfree
    · have hle := hrank (hlate op mem_cons_self)
      rw [countP_cons] at hspins
      exact .cons (ih (h.step hop hallowed) hrest htracked
        (fun op' hop' ↦ hlate op' (mem_cons_of_mem op hop')) (by omega))

/-- The clock does not go back, so the spins that count are those of the end of the run. -/
theorem Inv.frees (h : ex.Inv cfg) (halong : Along cfg (Allowed cfg) ops ex)
    (hqueued : Tracked latest ex idx) (hclock : (ops.filterMap Op.time?).Pairwise (· ≤ ·))
    (hspins : 4 * cfg.maxTasks + 1 ≤ ops.countP (Op.isSpinAfter latest)) :
    Frees cfg ops ex idx := by
  induction ops generalizing ex with
  | nil => exact absurd hspins (by rw [countP_nil]; omega)
  | cons op ops ih =>
    by_cases hlate : ∃ now ∈ op.time?, latest < now
    · obtain ⟨now, hnow, hlt⟩ := hlate
      refine h.frees_of_late halong hqueued ?_ ((rank_le h latest idx).trans hspins)
      have htime : op.time? = some now := hnow
      rw [filterMap_cons_some htime, pairwise_cons] at hclock
      intro op' hop' now' hnow'
      rcases mem_cons.mp hop' with rfl | hmem
      · obtain rfl : now = now' := some.inj (htime.symm.trans hnow')
        exact hlt
      · exact hlt.trans_le (hclock.1 now' (mem_filterMap.mpr ⟨op', hmem, hnow'⟩))
    · obtain ⟨hop, hallowed, hrest⟩ := halong
      have hnot : op.isSpinAfter latest = false := by
        cases op with
        | spin now => exact decide_eq_false fun hlt ↦ hlate ⟨now, rfl, hlt⟩
        | _ => rfl
      have hclock' : (ops.filterMap Op.time?).Pairwise (· ≤ ·) :=
        hclock.sublist ((sublist_cons_self op ops).filterMap _)
      rw [countP_cons, hnot] at hspins
      rcases h.step_tracked hop hallowed hqueued with hfree | ⟨htracked, -⟩
      · exact .of_step hfree
      · exact .cons (ih (h.step hop hallowed) hrest htracked hclock' hspins)

/-- The slot of a cancelled task that is not being executed is freed, whatever is called, once so
many spins were made after the wake-up times of the tasks that sleep now. -/
def Reclaims (cfg : ExecutorConfig) (P : Executor → Op → Prop) (ex : Executor) : Prop :=
  ∀ idx slot, ex.tasks.slots idx = some slot → slot.data.hasFn = false →
    ex.executing ≠ some idx → ∀ latest,
      (∀ sleeper ∈ ex.sleepingTasks, ex.tasks.wakeUp sleeper ≤ latest) →
        ∀ ops, Along cfg P ops ex → (ops.filterMap Op.time?).Pairwise (· ≤ ·) →
          4 * cfg.maxTasks + 1 ≤ ops.countP (Op.isSpinAfter latest) → Frees cfg ops ex idx

theorem Inv.reclaims (h : ex.Inv cfg) : ex.Reclaims cfg (Allowed cfg) := by
  intro idx slot hslot hcancelled hexecuting latest hlatest ops halong hclock hspins
  have hfn : ex.tasks.hasFn idx = false := by
    rw [FutPool.hasFn, hslot]
    exact hcancelled
  have hmem : idx ∈ ex.places := by
    by_contra hnot
    have hkept := (h.placed.suspended idx slot hslot hnot).2
    rw [hcancelled] at hkept
    cases hkept
  rw [places, mem_append, mem_append, mem_toList] at hmem
  refine h.frees halong ⟨hfn, ?_⟩ hclock hspins
  rcases hmem with (hready | hsleeping) | hmem
  · exact .inl hready
  · exact .inr (.of_forall hsleeping hlatest)
  · exact absurd hmem hexecuting

/-- In every state of a run in which no suspended task is cancelled, every task is in one place, no
push overflows, and the slots of cancelled tasks are freed. -/
theorem Reached.sound_reclaims (h : Reached cfg (Allowed cfg) ex) :
    ex.Sound cfg ∧ ex.Reclaims cfg (Allowed cfg) :=
  ⟨h.inv.sound, h.inv.reclaims⟩

/-- A small pool -/
def smallPool : ExecutorConfig := ⟨2, 0x10000000000000000⟩

/-- A task was spawned. -/
def oneSpawned : Executor := (new smallPool).step smallPool (.spawn true)

theorem reached_oneSpawned {P : Executor → Op → Prop} (hP : P (new smallPool) (.spawn true)) :
    Reached smallPool P oneSpawned :=
  .step .new trivial hP

theorem sound_reclaims_cancelledReady : (oneSpawned.step smallPool (.cancel 1)).Sound smallPool ∧
      (oneSpawned.step smallPool (.cancel 1)).Reclaims smallPool (Allowed smallPool) := by
  have hallowed : Allowed smallPool oneSpawned (.cancel 1) := by
    intro idx hidx
    obtain rfl : 0 = idx := some.inj hidx
    decide
  exact Reached.sound_reclaims (.step (reached_oneSpawned rfl) trivial hallowed)

/-- The task is called. -/
def oneCalled : Executor := { oneSpawned with readyTasks := [], executing := some 0 }

theorem oneSpawned_spin : oneSpawned.step smallPool (.spin 0) = oneCalled := by
  have hnext : oneSpawned.getNextFut smallPool 0 =
      ({ oneSpawned with readyTasks := [] }, .readyToExecuteTask, some 0) := rfl
  rw [step, spin_some hnext]
  rfl

/-- It suspends itself, and is cancelled. -/
def cancelledSuspended : Executor :=
  (oneCalled.step smallPool (.finish 0 .suspended)).step smallPool (.cancel 1)

/-- The slot of a suspended task that is cancelled is in no place, and no handle resumes it. -/
theorem cancelledSuspended_not_sound : ¬ ∀ cfg ex, Reached cfg (fun _ _ ↦ True) ex →
    ex.Sound cfg ∧ ex.Reclaims cfg fun _ _ ↦ True := by
  intro h
  have hcalled : Reached smallPool (fun _ _ ↦ True) oneCalled :=
    oneSpawned_spin ▸ .step (reached_oneSpawned trivial) rfl trivial
  have hreached : Reached smallPool (fun _ _ ↦ True) cancelledSuspended :=
    .step (.step hcalled (some_ne_none 0) trivial) trivial trivial
  rcases (h _ _ hreached).1.inOnePlace 0 ⟨1, false, .ready⟩ rfl with ⟨hcount, -⟩ | ⟨-, -, hfn, -⟩
  · exact absurd hcount (by decide)
  · cases hfn

end Executor

end ZenohPico.Runtime
