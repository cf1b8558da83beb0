import Mathlib.Algebra.BigOperators.Group.Finset.Basic
import Mathlib.Algebra.BigOperators.Group.Finset.Piecewise
import Mathlib.Algebra.Order.BigOperators.Group.Finset
import Mathlib.Logic.Function.Basic

/-!
Monitors: threads that share data under a mutex and sleep on condition variables.

A thread stands outside, or asks for the mutex, or holds it, or sleeps on a condition variable, and
it has a local state in each of these places. Only the thread that holds the mutex takes the steps
of `MonitorProgram.inside`; steps outside are single accesses to data that is atomic. A sleeping
thread is woken by a signal, by the end of its time, or for no reason, and asks for the mutex again
then.

There are two rules for sleepers. Where a change that a sleeper waits for is announced to all of
them, nobody sleeps while it has what it waits for, as long as no thread that holds the mutex still
owes its signal (`Reached.awake`). Where one unit of what they wait for is announced to one of them,
the threads that are awake can take as many units as there are (`Reached.enough`).

A third rule is for what the threads are told. Where every event of a log in the data is written by
the thread that takes it to its own account in the same step, the log is an interleaving of the
accounts of all threads (`Reached.interleaves`).
-/

open List Option

namespace ZenohPico.Foundations

/-- Where a thread stands, and its local state -/
inductive Place (κ ℓ : Type*)
  | outside (l : ℓ)
  | locking (l : ℓ)
  | inside (l : ℓ)
  | waiting (c : κ) (l : ℓ)
deriving DecidableEq

/-- What a step does to the condition variables -/
inductive Signal (κ : Type*)
  | none
  | one (c : κ)
  | all (c : κ)
deriving DecidableEq

/-- A step of the thread that holds the mutex: the data, the signal, and where the thread stands
then. It gives the mutex back unless it stands inside. -/
structure Move (κ σ ℓ : Type*) where
  data : σ
  place : Place κ ℓ
  signal : Signal κ

/-- The same place with another local state -/
def Place.map {κ ℓ ℓ' : Type*} (f : ℓ → ℓ') : Place κ ℓ → Place κ ℓ'
  | .outside l => .outside (f l)
  | .locking l => .locking (f l)
  | .inside l => .inside (f l)
  | .waiting c l => .waiting c (f l)

/-- The same step with another local state -/
def Move.map {κ σ ℓ ℓ' : Type*} (f : ℓ → ℓ') (m : Move κ σ ℓ) : Move κ σ ℓ' :=
  ⟨m.data, m.place.map f, m.signal⟩

@[simp] theorem Move.data_map {κ σ ℓ ℓ' : Type*} (f : ℓ → ℓ') (m : Move κ σ ℓ) :
    (m.map f).data = m.data := rfl

/-- What the threads of a monitor may do -/
structure MonitorProgram (κ σ ℓ : Type*) where
  /-- To ask for the mutex -/
  call : ℓ → ℓ → Prop
  /-- An access to atomic data without the mutex -/
  atomic : ℓ → σ → σ → ℓ → Prop
  /-- A step with the mutex -/
  inside : ℓ → σ → Move κ σ ℓ → Prop
  /-- The end of the time of a sleeper -/
  expire : ℓ → ℓ → Prop

/-- A state of a monitor and its threads -/
structure Monitor (τ κ σ ℓ : Type*) where
  data : σ
  owner : Option τ
  place : τ → Place κ ℓ

variable {τ κ σ ℓ : Type*}

variable {t : τ} {p : Place κ ℓ} {l : ℓ}

namespace Place

/-- A sleeper on `c` asks for the mutex, every other thread stays where it is. -/
def wakeAll [DecidableEq κ] (c : κ) : Place κ ℓ → Place κ ℓ
  | .waiting c' l => if c' = c then .locking l else .waiting c' l
  | p => p

/-- The owner of the mutex after a step of its owner -/
def keeps (t : τ) : Place κ ℓ → Option τ
  | .inside _ => some t
  | _ => none

/-- The local state of the thread -/
def state : Place κ ℓ → ℓ
  | .outside l => l
  | .locking l => l
  | .inside l => l
  | .waiting _ l => l

/-- The thread holds the mutex. -/
def IsInside (p : Place κ ℓ) : Prop := ∃ l, p = .inside l

theorem not_isInside_outside (l : ℓ) : ¬ (outside l : Place κ ℓ).IsInside :=
  fun ⟨_, h⟩ ↦ nomatch h

theorem not_isInside_locking (l : ℓ) : ¬ (locking l : Place κ ℓ).IsInside :=
  fun ⟨_, h⟩ ↦ nomatch h

theorem not_isInside_waiting (c : κ) (l : ℓ) : ¬ (waiting c l : Place κ ℓ).IsInside :=
  fun ⟨_, h⟩ ↦ nomatch h

theorem keeps_eq_some {u : τ} : p.keeps t = some u ↔ p.IsInside ∧ t = u := by
  cases p with
  | inside l => exact ⟨fun h ↦ ⟨⟨l, rfl⟩, some.inj h⟩, fun h ↦ congrArg some h.2⟩
  | outside l => exact iff_of_false (fun h ↦ nomatch h) fun h ↦ not_isInside_outside l h.1
  | locking l => exact iff_of_false (fun h ↦ nomatch h) fun h ↦ not_isInside_locking l h.1
  | waiting c l => exact iff_of_false (fun h ↦ nomatch h) fun h ↦ not_isInside_waiting c l h.1

/-- The second place is the first, or that of a sleeper who was woken. -/
def Woken (p p' : Place κ ℓ) : Prop := p' = p ∨ ∃ c l, p = .waiting c l ∧ p' = .locking l

theorem woken_wakeAll [DecidableEq κ] (c : κ) (p : Place κ ℓ) : p.Woken (p.wakeAll c) := by
  cases p with
  | waiting c' l =>
    by_cases hc : c' = c
    · exact .inr ⟨c', l, rfl, if_pos hc⟩
    · exact .inl (if_neg hc)
  | outside l => exact .inl rfl
  | locking l => exact .inl rfl
  | inside l => exact .inl rfl

theorem wakeAll_ne [DecidableEq κ] (c : κ) (p : Place κ ℓ) (l : ℓ) :
    p.wakeAll c ≠ .waiting c l := by
  intro h
  cases p with
  | waiting c' l' =>
    rw [wakeAll] at h
    split at h
    · cases h
    · next hc => exact hc (Place.waiting.inj h).1
  | outside l' => cases h
  | locking l' => cases h
  | inside l' => cases h

theorem Woken.of_waiting {c : κ} (h : p.Woken (.waiting c l)) : p = .waiting c l := by
  obtain h | ⟨_, _, _, h⟩ := h
  · exact h.symm
  · cases h

theorem Woken.of_inside (h : p.Woken (.inside l)) : p = .inside l := by
  obtain h | ⟨_, _, _, h⟩ := h
  · exact h.symm
  · cases h

theorem Woken.inside {p : Place κ ℓ} {l : ℓ} (h : Place.Woken (.inside l) p) : p = .inside l := by
  obtain h | ⟨_, _, h, _⟩ := h
  · exact h
  · cases h

end Place

/-- A thread at another place than the one that `t` has moved to -/
theorem of_update [DecidableEq τ] {place : τ → Place κ ℓ} {u : τ} {q : Place κ ℓ}
    (h : Function.update place t p u = q) (hne : p ≠ q) : u ≠ t ∧ place u = q := by
  by_cases hu : u = t
  · subst hu
    rw [Function.update_self] at h
    exact absurd h hne
  · rw [Function.update_of_ne hu] at h
    exact ⟨hu, h⟩

namespace Monitor

/-- All threads stand outside. -/
def Rests (s : Monitor τ κ σ ℓ) : Prop := s.owner = none ∧ ∀ t, ∃ l, s.place t = .outside l

/-- No thread holds the mutex or asks for it. -/
def Quiet (s : Monitor τ κ σ ℓ) : Prop :=
  ∀ t l, s.place t ≠ .inside l ∧ s.place t ≠ .locking l

/-- The owner of the mutex is the thread that stands inside. -/
def Exclusive (s : Monitor τ κ σ ℓ) : Prop := ∀ t, (s.place t).IsInside ↔ s.owner = some t

theorem Rests.exclusive {s : Monitor τ κ σ ℓ} (h : s.Rests) : s.Exclusive := by
  intro t
  obtain ⟨l, hplace⟩ := h.2 t
  rw [hplace, h.1]
  exact iff_of_false (Place.not_isInside_outside l) (fun h ↦ nomatch h)

/-- Two threads that hold the mutex are one. -/
theorem Exclusive.eq {s : Monitor τ κ σ ℓ} (h : s.Exclusive) {u : τ} {l' : ℓ}
    (ht : s.place t = .inside l) (hu : s.place u = .inside l') : t = u :=
  some.inj (((h t).mp ⟨l, ht⟩).symm.trans ((h u).mp ⟨l', hu⟩))

/-- A thread that moves between places that are not inside -/
theorem Exclusive.update [DecidableEq τ] {s : Monitor τ κ σ ℓ} (h : s.Exclusive)
    (hbefore : ¬ (s.place t).IsInside) (hafter : ¬ p.IsInside) :
    ∀ u, (Function.update s.place t p u).IsInside ↔ s.owner = some u := by
  intro u
  by_cases hu : u = t
  · subst hu
    rw [Function.update_self, ← h u]
    exact iff_of_false hafter hbefore
  · rw [Function.update_of_ne hu]
    exact h u

end Monitor

variable {J : Monitor τ κ σ ℓ → Prop}

section Steps

variable [DecidableEq τ] [DecidableEq κ]

/-- The places of the threads after a signal. A signal to one sleeper wakes any one of them. -/
def Wakes (place : τ → Place κ ℓ) : Signal κ → (τ → Place κ ℓ) → Prop
  | .none, place' => place' = place
  | .one c, place' =>
    (∃ u l, place u = .waiting c l ∧ place' = Function.update place u (.locking l)) ∨
      ((∀ u l, place u ≠ .waiting c l) ∧ place' = place)
  | .all c, place' => place' = fun u ↦ (place u).wakeAll c

theorem Wakes.woken {place place' : τ → Place κ ℓ} {signal : Signal κ}
    (h : Wakes place signal place') (u : τ) : (place u).Woken (place' u) := by
  cases signal with
  | none =>
    subst h
    exact .inl rfl
  | one c =>
    obtain ⟨v, l, hplace, rfl⟩ | ⟨-, rfl⟩ := h
    · by_cases hu : u = v
      · subst hu
        exact .inr ⟨c, l, hplace, Function.update_self ..⟩
      · exact .inl (Function.update_of_ne hu ..)
    · exact .inl rfl
  | all c =>
    subst h
    exact Place.woken_wakeAll c (place u)

namespace Monitor

/-- One step of one thread -/
inductive Step (P : MonitorProgram κ σ ℓ) (s : Monitor τ κ σ ℓ) : Monitor τ κ σ ℓ → Prop
  | call {t : τ} {l l' : ℓ} (hplace : s.place t = .outside l) (hcall : P.call l l') :
    Step P s { s with place := Function.update s.place t (.locking l') }
  | atomic {t : τ} {l l' : ℓ} {d : σ} (hplace : s.place t = .outside l)
    (hatomic : P.atomic l s.data d l') :
    Step P s { s with data := d, place := Function.update s.place t (.outside l') }
  | lock {t : τ} {l : ℓ} (hfree : s.owner = none) (hplace : s.place t = .locking l) :
    Step P s { s with owner := some t, place := Function.update s.place t (.inside l) }
  | inside {t : τ} {l : ℓ} {m : Move κ σ ℓ} {place : τ → Place κ ℓ}
    (hplace : s.place t = .inside l) (hinside : P.inside l s.data m)
    (hwakes : Wakes s.place m.signal place) :
    Step P s ⟨m.data, m.place.keeps t, Function.update place t m.place⟩
  | expire {t : τ} {c : κ} {l l' : ℓ} (hplace : s.place t = .waiting c l)
    (hexpire : l' = l ∨ P.expire l l') :
    Step P s { s with place := Function.update s.place t (.locking l') }

/-- The states of the runs that begin in `s₀` -/
inductive Reached (P : MonitorProgram κ σ ℓ) (s₀ : Monitor τ κ σ ℓ) : Monitor τ κ σ ℓ → Prop
  | start : Reached P s₀ s₀
  | step {s s' : Monitor τ κ σ ℓ} (h : Reached P s₀ s) (hstep : s.Step P s') : Reached P s₀ s'

variable {P : MonitorProgram κ σ ℓ} {s₀ s s' : Monitor τ κ σ ℓ}

/-- What holds at first and is kept by every step holds in every state that is reached. -/
theorem Reached.induct (h : Reached P s₀ s) (hstart : J s₀)
    (hkept : ∀ s s', Reached P s₀ s → J s → s.Step P s' → J s') : J s := by
  induction h with
  | start => exact hstart
  | step hreached hstep ih => exact hkept _ _ hreached ih hstep

/-! ### One thread at a time -/

theorem Exclusive.step (h : s.Exclusive) (hstep : s.Step P s') : s'.Exclusive := by
  cases hstep with
  | call hplace hcall =>
    exact h.update (hplace ▸ Place.not_isInside_outside _) (Place.not_isInside_locking _)
  | atomic hplace hatomic =>
    exact h.update (hplace ▸ Place.not_isInside_outside _) (Place.not_isInside_outside _)
  | expire hplace hexpire =>
    exact h.update (hplace ▸ Place.not_isInside_waiting _ _) (Place.not_isInside_locking _)
  | @lock t l hfree hplace =>
    intro u
    by_cases hu : u = t
    · subst hu
      change (Function.update s.place u (.inside l) u).IsInside ↔ _
      rw [Function.update_self]
      exact iff_of_true ⟨l, rfl⟩ rfl
    · change (Function.update s.place t (.inside l) u).IsInside ↔ some t = some u
      rw [Function.update_of_ne hu, h u, hfree]
      exact iff_of_false (fun h ↦ nomatch h) fun heq ↦ hu (some.inj heq).symm
  | @inside t l m place hplace hinside hwakes =>
    intro u
    change (Function.update place t m.place u).IsInside ↔ m.place.keeps t = some u
    rw [Place.keeps_eq_some]
    by_cases hu : u = t
    · subst hu
      rw [Function.update_self]
      exact ⟨fun hin ↦ ⟨hin, rfl⟩, fun hand ↦ hand.1⟩
    · rw [Function.update_of_ne hu]
      refine iff_of_false (fun ⟨l', hin⟩ ↦ hu ?_) fun hand ↦ hu hand.2.symm
      have hwoken := hwakes.woken u
      rw [hin] at hwoken
      have howner := (h u).mp ⟨l', hwoken.of_inside⟩
      exact some.inj (howner.symm.trans ((h t).mp ⟨l, hplace⟩))

theorem Reached.exclusive (h : Reached P s₀ s) (hrests : s₀.Rests) : s.Exclusive :=
  h.induct hrests.exclusive fun _ _ _ hexclusive hstep ↦ hexclusive.step hstep

/-- What every thread keeps of its own place and of the shared data. `J` is what is known of all
states already. -/
theorem Reached.forall_place {A : Place κ ℓ → σ → Prop} (h : Reached P s₀ s)
    (hJ : ∀ s, Reached P s₀ s → J s) (hstart : ∀ t, A (s₀.place t) s₀.data)
    (hcall : ∀ l l' d, P.call l l' → A (.outside l) d → A (.locking l') d)
    (hatomic : ∀ (s : Monitor τ κ σ ℓ) t l l' d, J s → s.place t = .outside l →
      P.atomic l s.data d l' → A (.outside l) s.data →
        A (.outside l') d ∧ ∀ u, u ≠ t → A (s.place u) s.data → A (s.place u) d)
    (hlock : ∀ l d, A (.locking l) d → A (.inside l) d)
    (hinside : ∀ (s : Monitor τ κ σ ℓ) t l m, J s → s.place t = .inside l →
      P.inside l s.data m → A (.inside l) s.data →
        A m.place m.data ∧ ∀ u, u ≠ t → A (s.place u) s.data → A (s.place u) m.data)
    (hwake : ∀ c l l' d, l' = l ∨ P.expire l l' → A (.waiting c l) d → A (.locking l') d) :
    ∀ t, A (s.place t) s.data := by
  refine h.induct (J := fun s ↦ ∀ t, A (s.place t) s.data) hstart
    fun s s' hreached hall hstep ↦ ?_
  -- One thread has moved, the others are where they were.
  have hmoved : ∀ (t : τ) (p : Place κ ℓ), A p s.data →
      ∀ u, A (Function.update s.place t p u) s.data := by
    intro t p hp u
    by_cases hu : u = t
    · subst hu
      rw [Function.update_self]
      exact hp
    · rw [Function.update_of_ne hu]
      exact hall u
  cases hstep with
  | @call t l l' hplace h =>
    exact hmoved t _ (hcall l l' s.data h (hplace ▸ hall t))
  | @lock t l hfree hplace =>
    exact hmoved t _ (hlock l s.data (hplace ▸ hall t))
  | @expire t c l l' hplace h =>
    exact hmoved t _ (hwake c l l' s.data h (hplace ▸ hall t))
  | @atomic t l l' d hplace h =>
    obtain ⟨hown, hothers⟩ := hatomic s t l l' d (hJ s hreached) hplace h (hplace ▸ hall t)
    intro u
    change A (Function.update s.place t (.outside l') u) d
    by_cases hu : u = t
    · subst hu
      rw [Function.update_self]
      exact hown
    · rw [Function.update_of_ne hu]
      exact hothers u hu (hall u)
  | @inside t l m place hplace h hwakes =>
    obtain ⟨hown, hothers⟩ := hinside s t l m (hJ s hreached) hplace h (hplace ▸ hall t)
    intro u
    change A (Function.update place t m.place u) m.data
    by_cases hu : u = t
    · subst hu
      rw [Function.update_self]
      exact hown
    · rw [Function.update_of_ne hu]
      obtain hsame | ⟨c, k, hwaiting, hwoken⟩ := hwakes.woken u
      · rw [hsame]
        exact hothers u hu (hall u)
      · rw [hwoken]
        exact hwake c k k m.data (.inl rfl) (hwaiting ▸ hothers u hu (hall u))

/-! ### Sleepers that are all woken -/

/-- A sleeper that has what it waits for is owed a signal by the thread that holds the mutex. -/
def Awake (Ready : κ → ℓ → σ → Prop) (Owes : κ → ℓ → Prop) (s : Monitor τ κ σ ℓ) : Prop :=
  ∀ t c l, s.place t = .waiting c l → Ready c l s.data → ∃ u k, s.place u = .inside k ∧ Owes c k

/-- Nobody sleeps while it has what it waits for: it does not go to sleep then, and the thread that
brings it about wakes all sleepers before it gives the mutex back. -/
theorem Reached.awake {Ready : κ → ℓ → σ → Prop} {Owes : κ → ℓ → Prop} (h : Reached P s₀ s)
    (hrests : s₀.Rests) (hJ : ∀ s, Reached P s₀ s → J s)
    (hatomic : ∀ (s : Monitor τ κ σ ℓ) t l l' d, J s → s.place t = .outside l →
      P.atomic l s.data d l' → ∀ u c k, s.place u = .waiting c k → Ready c k d → Ready c k s.data)
    (hsleep : ∀ (s : Monitor τ κ σ ℓ) t l m c k, J s → s.place t = .inside l →
      P.inside l s.data m → m.place = .waiting c k → ¬ Ready c k m.data)
    (hinside : ∀ (s : Monitor τ κ σ ℓ) t l m, J s → s.place t = .inside l →
      P.inside l s.data m → ∀ u c k, u ≠ t → s.place u = .waiting c k → Ready c k m.data →
        m.signal = .all c ∨ (∃ k', m.place = .inside k' ∧ Owes c k') ∨
          (¬ Owes c l ∧ Ready c k s.data)) : s.Awake Ready Owes := by
  refine h.induct (fun t c l hplace _ ↦ ?_) fun s s' hreached hawake hstep ↦ ?_
  · obtain ⟨l', hout⟩ := hrests.2 t
    exact nomatch hplace.symm.trans hout
  -- A thread outside moves to a place where it neither sleeps nor holds the mutex.
  have hmoved : ∀ (t : τ) (p : Place κ ℓ), ¬ (s.place t).IsInside → (∀ c l, p ≠ .waiting c l) →
      ({ s with place := Function.update s.place t p } : Monitor τ κ σ ℓ).Awake Ready Owes := by
    intro t p hbefore hafter u c l hplace hready
    obtain ⟨-, hu⟩ := of_update hplace (hafter c l)
    obtain ⟨v, k, hv, howes⟩ := hawake u c l hu hready
    have hne : v ≠ t := fun heq ↦ hbefore (heq ▸ ⟨k, hv⟩)
    exact ⟨v, k, (Function.update_of_ne hne ..).trans hv, howes⟩
  cases hstep with
  | @call t l l' hplace h =>
    exact hmoved t _ (hplace ▸ Place.not_isInside_outside l) fun c k heq ↦ nomatch heq
  | @expire t c l l' hplace h =>
    exact hmoved t _ (hplace ▸ Place.not_isInside_waiting c l) fun c k heq ↦ nomatch heq
  | @lock t l hfree hplace =>
    intro u c k hu hready
    obtain ⟨-, hbefore⟩ := of_update hu fun heq ↦ nomatch heq
    obtain ⟨v, k', hv, -⟩ := hawake u c k hbefore hready
    exact absurd (((hreached.exclusive hrests v).mp ⟨k', hv⟩).symm.trans hfree)
      (some_ne_none v)
  | @atomic t l l' d hplace h =>
    intro u c k hu hready
    obtain ⟨-, hbefore⟩ := of_update hu fun heq ↦ nomatch heq
    exact hmoved t (.outside l') (hplace ▸ Place.not_isInside_outside l)
      (fun c k heq ↦ nomatch heq) u c k hu
      (hatomic s t l l' d (hJ s hreached) hplace h u c k hbefore hready)
  | @inside t l m place hplace h hwakes =>
    intro u c k hu hready
    change Function.update place t m.place u = .waiting c k at hu
    by_cases hne : u = t
    · subst hne
      rw [Function.update_self] at hu
      exact absurd hready (hsleep s u l m c k (hJ s hreached) hplace h hu)
    · rw [Function.update_of_ne hne] at hu
      have hwoken := hwakes.woken u
      rw [hu] at hwoken
      obtain hall | ⟨k', hin, howes⟩ | ⟨hnot, hbefore⟩ :=
        hinside s t l m (hJ s hreached) hplace h u c k hne hwoken.of_waiting hready
      · rw [hall] at hwakes
        change place = _ at hwakes
        rw [hwakes] at hu
        exact absurd hu (Place.wakeAll_ne c _ k)
      · exact ⟨t, k', (Function.update_self ..).trans hin, howes⟩
      · obtain ⟨v, k', hv, howes⟩ := hawake u c k hwoken.of_waiting hbefore
        obtain rfl := (hreached.exclusive hrests).eq hv hplace
        obtain rfl := Place.inside.inj (hv.symm.trans hplace)
        exact absurd howes hnot

omit [DecidableEq τ] [DecidableEq κ] in
/-- Where no thread holds the mutex, no sleeper has what it waits for. -/
theorem Awake.not_ready {Ready : κ → ℓ → σ → Prop} {Owes : κ → ℓ → Prop}
    (h : s.Awake Ready Owes) (hfree : ∀ t l, s.place t ≠ .inside l) {t : τ} {c : κ} {l : ℓ}
    (hplace : s.place t = .waiting c l) : ¬ Ready c l s.data := by
  intro hready
  obtain ⟨u, k, hu, -⟩ := h t c l hplace hready
  exact hfree u k hu

/-! ### Sleepers that are woken one by one -/

section Load

variable [Fintype τ]

/-- The sum of a weight over all threads -/
def load (w : Place κ ℓ → ℕ) (place : τ → Place κ ℓ) : ℕ := ∑ t, w (place t)

variable {w : Place κ ℓ → ℕ} {place place' : τ → Place κ ℓ}

omit [DecidableEq κ] in
/-- One thread that moves changes the sum by the weights of its places. -/
theorem load_update (w : Place κ ℓ → ℕ) (place : τ → Place κ ℓ) (t : τ) (p : Place κ ℓ) :
    load w (Function.update place t p) + w (place t) = load w place + w p := by
  have hother : ∑ u ∈ Finset.univ.erase t, w (Function.update place t p u) =
      ∑ u ∈ Finset.univ.erase t, w (place u) :=
    Finset.sum_congr rfl fun u hu ↦ by rw [Function.update_of_ne (Finset.ne_of_mem_erase hu)]
  have hafter := Finset.add_sum_erase Finset.univ (fun u ↦ w (Function.update place t p u))
    (Finset.mem_univ t)
  have hbefore := Finset.add_sum_erase Finset.univ (fun u ↦ w (place u)) (Finset.mem_univ t)
  rw [Function.update_self, hother] at hafter
  rw [load, load, ← hafter, ← hbefore]
  omega

omit [DecidableEq τ] [DecidableEq κ] in
theorem load_le_of_woken (hw : ∀ c l, w (.waiting c l) ≤ w (.locking l))
    (h : ∀ u, (place u).Woken (place' u)) : load w place ≤ load w place' := by
  refine Finset.sum_le_sum fun u _ ↦ ?_
  obtain hsame | ⟨c, l, hwaiting, hwoken⟩ := h u
  · rw [hsame]
  · rw [hwaiting, hwoken]
    exact hw c l

/-- The weight of the threads that are awake and will take a unit -/
def takerWeight (taker : ℓ → Bool) : Place κ ℓ → ℕ
  | .locking l => (taker l).toNat
  | .inside l => (taker l).toNat
  | _ => 0

/-- While somebody sleeps on `c`, the threads that are awake can take all the units there are. -/
def Enough (c : κ) (taker : ℓ → Bool) (need : σ → ℕ) (s : Monitor τ κ σ ℓ) : Prop :=
  (∀ t l, s.place t = .waiting c l → taker l = true) ∧
    ((∃ t l, s.place t = .waiting c l) → need s.data ≤ load (takerWeight taker) s.place)

/-- A signal to one of several sleepers on `c` adds a thread that will take a unit. -/
theorem load_wakes_one {c : κ} {taker : ℓ → Bool}
    (htaker : ∀ t l, place t = .waiting c l → taker l = true)
    (hwakes : Wakes place (.one c) place') (hsome : ∃ t l, place t = .waiting c l) :
    load (takerWeight taker) place' = load (takerWeight taker) place + 1 := by
  obtain ⟨u, l, hu, rfl⟩ | ⟨hnone, -⟩ := hwakes
  · have hload := load_update (takerWeight taker) place u (.locking l)
    rw [hu] at hload
    change _ + 0 = _ + (taker l).toNat at hload
    rw [htaker u l hu] at hload
    exact hload
  · obtain ⟨t, l, ht⟩ := hsome
    exact absurd ht (hnone t l)

/-- A thread goes to sleep only where there is no unit, a thread that will take a unit takes one
unless there is none, and every new unit is announced to one sleeper. -/
theorem Reached.enough {c : κ} {taker : ℓ → Bool} {need : σ → ℕ} (h : Reached P s₀ s)
    (hrests : s₀.Rests) (hJ : ∀ s, Reached P s₀ s → J s)
    (hatomic : ∀ l l' d d', P.atomic l d d' l' → need d' ≤ need d)
    (hsleep : ∀ (s : Monitor τ κ σ ℓ) t l m k, J s → s.place t = .inside l →
      P.inside l s.data m → m.place = .waiting c k → taker k = true ∧ need m.data = 0)
    (hinside : ∀ (s : Monitor τ κ σ ℓ) t l m, J s → s.place t = .inside l →
      P.inside l s.data m → m.signal = .all c ∨ need m.data = 0 ∨
        need m.data + takerWeight taker (.inside l : Place κ ℓ) ≤
          need s.data + takerWeight taker m.place + if m.signal = .one c then 1 else 0) :
    s.Enough c taker need := by
  refine h.induct ⟨fun t l hplace ↦ ?_, fun ⟨t, l, hplace⟩ ↦ ?_⟩
    fun s s' hreached ⟨htaker, henough⟩ hstep ↦ ?_
  · obtain ⟨l', hout⟩ := hrests.2 t
    exact nomatch hplace.symm.trans hout
  · obtain ⟨l', hout⟩ := hrests.2 t
    exact nomatch hplace.symm.trans hout
  -- A thread moves to a place of no less weight, where it does not sleep.
  have hmoved : ∀ (t : τ) (p : Place κ ℓ) (d : σ), need d ≤ need s.data →
      takerWeight taker (s.place t) ≤ takerWeight taker p → (∀ l, p ≠ .waiting c l) →
      ∀ owner, (⟨d, owner, Function.update s.place t p⟩ : Monitor τ κ σ ℓ).Enough c taker need := by
    intro t p d hneed hweight hawake owner
    refine ⟨fun u l hu ↦ htaker u l (of_update hu (hawake l)).2, fun ⟨u, l, hu⟩ ↦ ?_⟩
    have hbefore := henough ⟨u, l, (of_update hu (hawake l)).2⟩
    have hload := load_update (takerWeight taker) s.place t p
    change need d ≤ load (takerWeight taker) (Function.update s.place t p)
    omega
  cases hstep with
  | @call t l l' hplace h =>
    exact hmoved t (.locking l') _ le_rfl (hplace ▸ Nat.zero_le _) (fun k heq ↦ nomatch heq) _
  | @expire t c' l l' hplace h =>
    exact hmoved t (.locking l') _ le_rfl (hplace ▸ Nat.zero_le _) (fun k heq ↦ nomatch heq) _
  | @lock t l hfree hplace =>
    exact hmoved t (.inside l) _ le_rfl (hplace ▸ le_rfl) (fun k heq ↦ nomatch heq) _
  | @atomic t l l' d hplace h =>
    exact hmoved t (.outside l') _ (hatomic l l' s.data d h) (hplace ▸ le_rfl)
      (fun k heq ↦ nomatch heq) _
  | @inside t l m place hplace h hwakes =>
    have hplace' : place t = .inside l := by
      have hwoken := hwakes.woken t
      rw [hplace] at hwoken
      exact hwoken.inside
    have hbefore : ∀ u k, place u = .waiting c k → s.place u = .waiting c k := fun u k hu ↦ by
      have hwoken := hwakes.woken u
      rw [hu] at hwoken
      exact hwoken.of_waiting
    refine ⟨fun u k hu ↦ ?_, fun ⟨u, k, hu⟩ ↦ ?_⟩
    · by_cases hne : m.place = .waiting c k
      · exact (hsleep s t l m k (hJ s hreached) hplace h hne).1
      · exact htaker u k (hbefore u k (of_update hu hne).2)
    by_cases hne : m.place = .waiting c k
    · change need m.data ≤ _
      rw [(hsleep s t l m k (hJ s hreached) hplace h hne).2]
      exact Nat.zero_le _
    -- Another thread sleeps on: the signal was not to all, and has woken one if it was to one.
    have hu' := (of_update hu hne).2
    have hsome : ∃ u k, s.place u = .waiting c k := ⟨u, k, hbefore u k hu'⟩
    have hload := load_update (takerWeight taker) place t m.place
    have hle : load (takerWeight taker) s.place ≤ load (takerWeight taker) place :=
      load_le_of_woken (fun c l ↦ Nat.zero_le _) hwakes.woken
    rw [hplace'] at hload
    have henough := henough hsome
    change need m.data ≤ load (takerWeight taker) (Function.update place t m.place)
    obtain hall | hnone | hone := hinside s t l m (hJ s hreached) hplace h
    · rw [hall] at hwakes
      change place = _ at hwakes
      rw [hwakes] at hu'
      exact absurd hu' (Place.wakeAll_ne c _ k)
    · rw [hnone]
      exact Nat.zero_le _
    · by_cases hsignal : m.signal = .one c
      · rw [if_pos hsignal] at hone
        rw [hsignal] at hwakes
        have hwoken := load_wakes_one htaker hwakes hsome
        omega
      · rw [if_neg hsignal] at hone
        omega

omit [DecidableEq τ] [DecidableEq κ] in
/-- Where no thread holds the mutex or asks for it, nobody sleeps while there is a unit. -/
theorem Enough.need_eq_zero {c : κ} {taker : ℓ → Bool} {need : σ → ℕ} (h : s.Enough c taker need)
    (hquiet : s.Quiet) {t : τ} {l : ℓ} (hplace : s.place t = .waiting c l) : need s.data = 0 := by
  refine Nat.le_zero.mp ((h.2 ⟨t, l, hplace⟩).trans_eq (Finset.sum_eq_zero fun u _ ↦ ?_))
  cases hu : s.place u with
  | inside k => exact absurd hu (hquiet u k).1
  | locking k => exact absurd hu (hquiet u k).2
  | outside k => rfl
  | waiting c' k => rfl

end Load

end Monitor

end Steps

/-! ### Logs -/

section Logs

variable {ε : Type*} {Legal : List ε → ε → Prop} {log : List ε}

/-- Every event of a log is legal after those before it. -/
def LegalLog (Legal : List ε → ε → Prop) (log : List ε) : Prop :=
  ∀ before event after, log = before ++ event :: after → Legal before event

theorem legalLog_nil : LegalLog Legal [] :=
  fun _ _ _ h ↦ absurd h.symm (append_ne_nil_of_right_ne_nil _ (cons_ne_nil _ _))

theorem LegalLog.concat (h : LegalLog Legal log) {event : ε} (hlegal : Legal log event) :
    LegalLog Legal (log ++ [event]) := by
  intro before other after heq
  rcases eq_nil_or_concat after with rfl | ⟨after, last, rfl⟩
  · obtain ⟨rfl, hlast⟩ := append_inj' heq rfl
    exact (List.cons.inj hlast).1 ▸ hlegal
  · rw [concat_eq_append, ← cons_append, ← append_assoc] at heq
    exact h before other after (append_inj' heq rfl).1

/-- The log is an interleaving of the threads' own accounts. -/
inductive Interleaves [DecidableEq τ] : (τ → List ε) → List ε → Prop
  | nil : Interleaves (fun _ ↦ []) []
  | concat {own : τ → List ε} {log : List ε} (h : Interleaves own log) (t : τ) (event : ε) :
    Interleaves (Function.update own t (own t ++ [event])) (log ++ [event])

variable [DecidableEq τ] {own : τ → List ε}

/-- Nothing stands in an account that the log does not have. -/
theorem Interleaves.mem (h : Interleaves own log) {event : ε} (hmem : event ∈ own t) :
    event ∈ log := by
  induction h with
  | nil => exact absurd hmem not_mem_nil
  | concat h u other ih =>
    by_cases ht : t = u
    · subst ht
      rw [Function.update_self] at hmem
      obtain hmem | hmem := mem_append.mp hmem
      · exact mem_append_left _ (ih hmem)
      · exact mem_append_right _ hmem
    · rw [Function.update_of_ne ht] at hmem
      exact mem_append_left _ (ih hmem)

/-- What a step writes: nothing, or one event into both the account and the log -/
def Writes (before : List ε) (log : List ε) (after : List ε) (log' : List ε) : Prop :=
  (after = before ∧ log' = log) ∨ ∃ event, after = before ++ [event] ∧ log' = log ++ [event]

theorem Interleaves.writes (h : Interleaves own log) {after log' : List ε}
    (hwrites : Writes (own t) log after log') {own' : τ → List ε} (hself : own' t = after)
    (hothers : ∀ u, u ≠ t → own' u = own u) : Interleaves own' log' := by
  have hown : own' = Function.update own t after :=
    (Function.eq_update_iff).mpr ⟨hself, hothers⟩
  subst hown
  obtain ⟨rfl, rfl⟩ | ⟨event, rfl, rfl⟩ := hwrites
  · rw [Function.update_eq_self]
    exact h
  · exact h.concat t event

variable [DecidableEq κ] {P : MonitorProgram κ σ ℓ} {s₀ s : Monitor τ κ σ ℓ}

/-- Where every event of the log is written by the thread that takes it to its account in the same
step, the log is an interleaving of the accounts. -/
theorem Monitor.Reached.interleaves {A : ℓ → List ε} {L : σ → List ε} (h : Reached P s₀ s)
    (hJ : ∀ s, Reached P s₀ s → J s) (hstart : L s₀.data = [] ∧ ∀ t, A (s₀.place t).state = [])
    (hcall : ∀ l l', P.call l l' → A l' = A l)
    (hatomic : ∀ (s : Monitor τ κ σ ℓ) t l l' d, J s → s.place t = .outside l →
      P.atomic l s.data d l' → Writes (A l) (L s.data) (A l') (L d))
    (hinside : ∀ (s : Monitor τ κ σ ℓ) t l m, J s → s.place t = .inside l → P.inside l s.data m →
        Writes (A l) (L s.data) (A m.place.state) (L m.data))
    (hexpire : ∀ l l', P.expire l l' → A l' = A l) :
    Interleaves (fun t ↦ A (s.place t).state) (L s.data) := by
  refine h.induct (J := fun s ↦ Interleaves (fun t ↦ A (s.place t).state) (L s.data)) ?_
    fun s s' hreached hall hstep ↦ ?_
  · have hown : (fun t ↦ A (s₀.place t).state) = fun _ ↦ [] := funext hstart.2
    rw [hstart.1, hown]
    exact .nil
  -- One thread has moved, the others are where they were, or were woken with their local state.
  have hmoved : ∀ {place place' : τ → Place κ ℓ} {t : τ} {p : Place κ ℓ} {d : σ},
      place = s.place → (∀ u, (place u).Woken (place' u)) →
        Writes (A (place t).state) (L s.data) (A p.state) (L d) →
          Interleaves (fun u ↦ A (Function.update place' t p u).state) (L d) := by
    intro place place' t p d hplace hwoken hwrites
    subst hplace
    refine hall.writes hwrites ?_ fun u hu ↦ ?_
    · rw [Function.update_self]
    rw [Function.update_of_ne hu]
    obtain hsame | ⟨c, l, hwaiting, hlocking⟩ := hwoken u
    · rw [hsame]
    · rw [hwaiting, hlocking]
      rfl
  cases hstep with
  | @call t l l' hplace h =>
    exact hmoved rfl (fun u ↦ .inl rfl) (.inl ⟨hplace ▸ hcall l l' h, rfl⟩)
  | @lock t l hfree hplace => exact hmoved rfl (fun u ↦ .inl rfl) (.inl ⟨hplace ▸ rfl, rfl⟩)
  | @expire t c l l' hplace h =>
    refine hmoved rfl (fun u ↦ .inl rfl) (.inl ⟨?_, rfl⟩)
    rw [hplace]
    obtain rfl | h := h
    · rfl
    · exact hexpire l l' h
  | @atomic t l l' d hplace h =>
    exact hmoved rfl (fun u ↦ .inl rfl) (hplace ▸ hatomic s t l l' d (hJ s hreached) hplace h)
  | @inside t l m place hplace h hwakes =>
    exact hmoved rfl hwakes.woken (hplace ▸ hinside s t l m (hJ s hreached) hplace h)

end Logs

/-! ### A whole step with the mutex -/

namespace Monitor

variable [DecidableEq τ] [DecidableEq κ] {P : MonitorProgram κ σ ℓ} {s₀ s : Monitor τ κ σ ℓ}

/-- A thread that asks for the free mutex takes it, steps, and stands where the step leaves it. -/
theorem Reached.resumes (h : Reached P s₀ s) {m : Move κ σ ℓ} {place : τ → Place κ ℓ}
    (hfree : s.owner = none) (hplace : s.place t = .locking l) (hinside : P.inside l s.data m)
    (hwakes : Wakes (Function.update s.place t (.inside l)) m.signal place) :
    Reached P s₀ ⟨m.data, m.place.keeps t, Function.update place t m.place⟩ :=
  (h.step (.lock hfree hplace)).step (.inside (Function.update_self ..) hinside hwakes)

/-- A thread outside that calls and gets the free mutex at once -/
theorem Reached.enters (h : Reached P s₀ s) {l' : ℓ} {m : Move κ σ ℓ} {place : τ → Place κ ℓ}
    (hfree : s.owner = none) (hplace : s.place t = .outside l) (hcall : P.call l l')
    (hinside : P.inside l' s.data m)
    (hwakes : Wakes (Function.update s.place t (.inside l')) m.signal place) :
    Reached P s₀ ⟨m.data, m.place.keeps t, Function.update place t m.place⟩ := by
  refine (h.step (.call hplace hcall)).resumes hfree (Function.update_self ..) hinside ?_
  rw [Function.update_idem]
  exact hwakes

end Monitor

end ZenohPico.Foundations
