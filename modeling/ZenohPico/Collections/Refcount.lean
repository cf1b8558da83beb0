import Mathlib.Tactic.Common

/-!
Reference counting (`src/collections/refcount.c`, `include/zenoh-pico/collections/refcount.h`).

A block of two counters is shared by any number of strong and weak handles, on any number of
threads. Each access to a counter is one step. A call that needs several of them is in progress
between two, and stands at one of a few places of the code; how many calls stand at each place is
part of the state. The strong handles together own one of the weak counts.
-/

open Option

namespace ZenohPico.Collections

/-- `_Z_RC_MAX_COUNT` -/
def rcMaxCount : ℕ := 0x7FFFFFFF

/-- The counters, the handles and the calls in progress -/
structure RcState where
  /-- `_strong_cnt` -/
  strongCnt : ℕ
  /-- `_weak_cnt` -/
  weakCnt : ℕ
  /-- Strong handles that are not dropped -/
  strong : ℕ
  /-- Weak handles that are not dropped -/
  weak : ℕ
  /-- What each `_z_rc_weak_upgrade` in progress holds in `prev` -/
  upgrades : List ℕ
  /-- Calls of `_z_rc_decrease_strong` before their `_z_rc_decrease_weak` -/
  releasing : ℕ
  /-- Those of them before the `z_free` of the block -/
  freeing : ℕ
  /-- Calls of `_z_rc_decrease_weak` for a weak handle before the `z_free` of the block -/
  freeingWeak : ℕ
  /-- Calls of `_rc_drop` before the clear of the value -/
  clearing : ℕ
  /-- How often the value was cleared -/
  cleared : ℕ
  /-- How often the block was freed -/
  freed : ℕ
  /-- A counter was read or written after the block was freed. -/
  touchedFreed : Bool
deriving DecidableEq, Repr

/-- One step of one of the calls -/
inductive RcAct
  | rcClone
  | rcCloneAsWeak
  | weakClone
  | rcDrop
  | decreaseWeak
  | freeBlock
  | clearValue
  | weakDrop
  | freeBlockWeak
  | upgradeLoad
  | upgradeExchange (k : ℕ) (spurious : Bool)
  | upgradeFail (k : ℕ)
deriving DecidableEq, Repr

namespace RcState

/-- `_z_rc_init`: one strong handle -/
def init : RcState where
  strongCnt := 1
  weakCnt := 1
  strong := 1
  weak := 0
  upgrades := []
  releasing := 0
  freeing := 0
  freeingWeak := 0
  clearing := 0
  cleared := 0
  freed := 0
  touchedFreed := false

/-- An access to a counter -/
def touch (s : RcState) : RcState :=
  { s with touchedFreed := s.touchedFreed || decide (0 < s.freed) }

/-- `_z_rc_increase_strong` of a clone: beyond the limit the count goes up all the same. -/
def rcClone (s : RcState) : RcState :=
  { s.touch with
    strongCnt := s.strongCnt + 1
    strong := if rcMaxCount ≤ s.strongCnt then s.strong else s.strong + 1 }

/-- `_z_rc_increase_weak` of a clone -/
def weakClone (s : RcState) : RcState :=
  { s.touch with
    weakCnt := s.weakCnt + 1
    weak := if rcMaxCount ≤ s.weakCnt then s.weak else s.weak + 1 }

/-- The first step of `_z_rc_decrease_strong` -/
def rcDrop (s : RcState) : RcState :=
  { s.touch with
    strongCnt := s.strongCnt - 1
    strong := s.strong - 1
    releasing := if 1 < s.strongCnt then s.releasing else s.releasing + 1 }

/-- The first step of `_z_rc_decrease_weak` for the count that the strong handles own -/
def decreaseWeak (s : RcState) : RcState :=
  { s.touch with
    weakCnt := s.weakCnt - 1
    releasing := s.releasing - 1
    freeing := if 1 < s.weakCnt then s.freeing else s.freeing + 1
    clearing := if 1 < s.weakCnt then s.clearing + 1 else s.clearing }

/-- The first step of `_z_rc_decrease_weak` for a weak handle -/
def weakDrop (s : RcState) : RcState :=
  { s.touch with
    weakCnt := s.weakCnt - 1
    weak := s.weak - 1
    freeingWeak := if 1 < s.weakCnt then s.freeingWeak else s.freeingWeak + 1 }

/-- The exchange in the loop of `_z_rc_weak_upgrade`, which may fail for no reason -/
def upgradeExchange (s : RcState) (k prev : ℕ) (spurious : Bool) : RcState :=
  if s.strongCnt = prev ∧ spurious = false then
    { s.touch with
      strongCnt := prev + 1
      strong := s.strong + 1
      upgrades := s.upgrades.eraseIdx k }
  else { s.touch with upgrades := s.upgrades.set k s.strongCnt }

/-- The condition of the loop of `_z_rc_weak_upgrade` -/
def Upgradable (prev : ℕ) : Prop := prev ≠ 0 ∧ prev < rcMaxCount

instance (prev : ℕ) : Decidable (Upgradable prev) := inferInstanceAs (Decidable (_ ∧ _))

/-- One step, where some call can take it. A call borrows the handle that it is given, so the last
weak handle is not dropped while an upgrade is in progress. -/
def step (s : RcState) : RcAct → Option RcState
  | .rcClone => if 0 < s.strong then some s.rcClone else none
  | .rcCloneAsWeak => if 0 < s.strong then some s.weakClone else none
  | .weakClone => if 0 < s.weak then some s.weakClone else none
  | .rcDrop => if 0 < s.strong then some s.rcDrop else none
  | .decreaseWeak => if 0 < s.releasing then some s.decreaseWeak else none
  | .freeBlock =>
    if 0 < s.freeing then
      some { s with freed := s.freed + 1, freeing := s.freeing - 1, clearing := s.clearing + 1 }
    else none
  | .clearValue =>
    if 0 < s.clearing then
      some { s with cleared := s.cleared + 1, clearing := s.clearing - 1 }
    else none
  | .weakDrop =>
    if 0 < s.weak ∧ (1 < s.weak ∨ s.upgrades = []) then some s.weakDrop else none
  | .freeBlockWeak =>
    if 0 < s.freeingWeak then
      some { s with freed := s.freed + 1, freeingWeak := s.freeingWeak - 1 }
    else none
  | .upgradeLoad =>
    if 0 < s.weak then some { s.touch with upgrades := s.upgrades ++ [s.strongCnt] } else none
  | .upgradeExchange k spurious =>
    s.upgrades[k]?.bind fun prev ↦
      if Upgradable prev then some (s.upgradeExchange k prev spurious) else none
  | .upgradeFail k =>
    s.upgrades[k]?.bind fun prev ↦
      if Upgradable prev then none else some { s with upgrades := s.upgrades.eraseIdx k }

/-- Steps one after the other -/
def run (s : RcState) (acts : List RcAct) : Option RcState := acts.foldlM step s

/-- The steps that bring a drop in progress to its end -/
def finishes : RcAct → Bool
  | .decreaseWeak | .freeBlock | .clearValue | .freeBlockWeak => true
  | _ => false

/-- How many steps the drops in progress still take at most -/
def pending (s : RcState) : ℕ := 3 * s.releasing + 2 * s.freeing + s.clearing + s.freeingWeak

section Guard

variable {p : Prop} [Decidable p] {s s' : RcState}

theorem of_guard (h : (if p then some s else none) = some s') : p ∧ s = s' := by
  obtain ⟨hp, heq⟩ := ite_none_right_eq_some.1 h
  exact ⟨hp, some.inj heq⟩

theorem of_unless (h : (if p then none else some s) = some s') : ¬ p ∧ s = s' := by
  obtain ⟨hp, heq⟩ := ite_none_left_eq_some.1 h
  exact ⟨hp, some.inj heq⟩

end Guard

/-- The states of a run in which no count reaches the limit -/
inductive Reached : RcState → Prop
  | init : Reached init
  | step {s s' : RcState} {act : RcAct} (h : Reached s)
    (hbelow : s.strongCnt < rcMaxCount ∧ s.weakCnt < rcMaxCount)
    (hstep : s.step act = some s') : Reached s'

/-- A step while no count is at the limit -/
def stepBelow (s : RcState) (act : RcAct) : Option RcState :=
  if s.strongCnt < rcMaxCount ∧ s.weakCnt < rcMaxCount then s.step act else none

theorem Reached.run {s s' : RcState} (h : Reached s) (acts : List RcAct)
    (hrun : acts.foldlM stepBelow s = some s') : Reached s' := by
  induction acts generalizing s with
  | nil => exact some.inj hrun ▸ h
  | cons act acts ih =>
    obtain ⟨mid, hstep, hrest⟩ := bind_eq_some_iff.1 hrun
    obtain ⟨hbelow, hmid⟩ := ite_none_right_eq_some.1 hstep
    exact ih (h.step hbelow hmid) hrest

/-! ### The invariant -/

/-- The strong count is the number of strong handles. The weak count is the number of weak handles,
and one more while a strong handle is there or its owner has not released it. Either a strong handle
is there, or the value was cleared or will be by one call; either the weak count is positive, or the
block was freed or will be by one call. -/
structure Inv (s : RcState) : Prop where
  strong_eq : s.strongCnt = s.strong
  weak_eq : s.weakCnt = s.weak + s.releasing + if 0 < s.strong then 1 else 0
  clear_eq : s.cleared + s.releasing + s.freeing + s.clearing = if 0 < s.strong then 0 else 1
  free_eq : s.freed + s.freeing + s.freeingWeak = if 0 < s.weakCnt then 0 else 1
  borrowed : s.upgrades ≠ [] → 0 < s.weak
  untouched : s.touchedFreed = false

theorem inv_init : init.Inv where
  strong_eq := rfl
  weak_eq := rfl
  clear_eq := rfl
  free_eq := rfl
  borrowed := fun h ↦ absurd rfl h
  untouched := rfl

variable {k : ℕ} {act : RcAct}

namespace Inv

variable {s : RcState}

/-- As long as the weak count is positive the block is there. -/
theorem untouched_touch (h : s.Inv) (hweak : 0 < s.weakCnt) : s.touch.touchedFreed = false := by
  have hfree := h.free_eq
  rw [if_pos hweak] at hfree
  rw [touch, h.untouched, Bool.false_or, decide_eq_false_iff_not]
  omega

theorem weakCnt_pos_of_strong (h : s.Inv) (hstrong : 0 < s.strong) : 0 < s.weakCnt := by
  rw [h.weak_eq, if_pos hstrong]
  omega

theorem weakCnt_pos_of_weak (h : s.Inv) (hweak : 0 < s.weak) : 0 < s.weakCnt := by
  rw [h.weak_eq]
  omega

theorem weakCnt_pos_of_releasing (h : s.Inv) (hrel : 0 < s.releasing) : 0 < s.weakCnt := by
  rw [h.weak_eq]
  omega

theorem rcClone (h : s.Inv) (hstrong : 0 < s.strong) (hbelow : s.strongCnt < rcMaxCount) :
    s.rcClone.Inv := by
  have hweak := h.weak_eq
  have hclear := h.clear_eq
  rw [if_pos hstrong] at hweak hclear
  have hcount : s.rcClone.strong = s.strong + 1 := if_neg (Nat.not_le_of_lt hbelow)
  refine ⟨?_, ?_, ?_, h.free_eq, h.borrowed, h.untouched_touch (h.weakCnt_pos_of_strong hstrong)⟩
  · rw [hcount]
    exact congrArg (· + 1) h.strong_eq
  · rw [hcount, if_pos (Nat.succ_pos _)]
    exact hweak
  · rw [hcount, if_pos (Nat.succ_pos _)]
    exact hclear

theorem weakClone (h : s.Inv) (hpos : 0 < s.weakCnt) (hbelow : s.weakCnt < rcMaxCount) :
    s.weakClone.Inv := by
  have hweak := h.weak_eq
  have hfree := h.free_eq
  rw [if_pos hpos] at hfree
  have hcount : s.weakClone.weak = s.weak + 1 := if_neg (Nat.not_le_of_lt hbelow)
  refine ⟨h.strong_eq, ?_, h.clear_eq, ?_, fun _ ↦ ?_, h.untouched_touch hpos⟩
  · rw [hcount]
    change s.weakCnt + 1 = s.weak + 1 + s.releasing + if 0 < s.strong then 1 else 0
    rw [hweak]
    omega
  · change s.freed + s.freeing + s.freeingWeak = if 0 < s.weakCnt + 1 then 0 else 1
    rw [if_pos (Nat.succ_pos _), hfree]
  · rw [hcount]
    exact Nat.succ_pos _

/-- The last strong handle leaves its weak count to its own call. -/
theorem rcDrop (h : s.Inv) (hstrong : 0 < s.strong) : s.rcDrop.Inv := by
  have hcount := h.strong_eq
  have hweak := h.weak_eq
  have hclear := h.clear_eq
  rw [if_pos hstrong] at hweak hclear
  refine ⟨?_, ?_, ?_, h.free_eq, h.borrowed, h.untouched_touch (h.weakCnt_pos_of_strong hstrong)⟩
  · change s.strongCnt - 1 = s.strong - 1
    rw [hcount]
  · change s.weakCnt = s.weak + (if 1 < s.strongCnt then s.releasing else s.releasing + 1) +
      if 0 < s.strong - 1 then 1 else 0
    split <;> split <;> omega
  · change s.cleared + (if 1 < s.strongCnt then s.releasing else s.releasing + 1) + s.freeing +
      s.clearing = if 0 < s.strong - 1 then 0 else 1
    split <;> split <;> omega

/-- The call of the last strong handle releases the weak count, and the block if it was the last
count. -/
theorem decreaseWeak (h : s.Inv) (hrel : 0 < s.releasing) : s.decreaseWeak.Inv := by
  have hweak := h.weak_eq
  have hclear := h.clear_eq
  have hfree := h.free_eq
  have hpos := h.weakCnt_pos_of_releasing hrel
  have hnone : ¬ 0 < s.strong := fun hstrong ↦ by
    rw [if_pos hstrong] at hclear
    omega
  rw [if_neg hnone] at hweak hclear
  rw [if_pos hpos] at hfree
  refine ⟨h.strong_eq, ?_, ?_, ?_, h.borrowed, h.untouched_touch hpos⟩
  · change s.weakCnt - 1 = s.weak + (s.releasing - 1) + if 0 < s.strong then 1 else 0
    rw [if_neg hnone]
    omega
  · change s.cleared + (s.releasing - 1) + (if 1 < s.weakCnt then s.freeing else s.freeing + 1) +
      (if 1 < s.weakCnt then s.clearing + 1 else s.clearing) = if 0 < s.strong then 0 else 1
    rw [if_neg hnone]
    split <;> omega
  · change s.freed + (if 1 < s.weakCnt then s.freeing else s.freeing + 1) + s.freeingWeak =
      if 0 < s.weakCnt - 1 then 0 else 1
    split <;> split <;> omega

theorem weakDrop (h : s.Inv) (hpos : 0 < s.weak) (hborrowed : 1 < s.weak ∨ s.upgrades = []) :
    s.weakDrop.Inv := by
  have hweak := h.weak_eq
  have hfree := h.free_eq
  have hcount := h.weakCnt_pos_of_weak hpos
  rw [if_pos hcount] at hfree
  refine ⟨h.strong_eq, ?_, h.clear_eq, ?_, fun hne ↦ ?_, h.untouched_touch hcount⟩
  · change s.weakCnt - 1 = s.weak - 1 + s.releasing + if 0 < s.strong then 1 else 0
    omega
  · change s.freed + s.freeing + (if 1 < s.weakCnt then s.freeingWeak else s.freeingWeak + 1) =
      if 0 < s.weakCnt - 1 then 0 else 1
    split <;> split <;> omega
  · change 0 < s.weak - 1
    obtain hmore | hnone := hborrowed
    · omega
    · exact absurd hnone hne

/-- An upgrade takes a strong count only where there is one, so a strong handle is there. -/
theorem upgradeExchange (h : s.Inv) (hweak : 0 < s.weak) {prev : ℕ} (hprev : prev ≠ 0)
    (spurious : Bool) : (s.upgradeExchange k prev spurious).Inv := by
  have huntouched := h.untouched_touch (h.weakCnt_pos_of_weak hweak)
  rw [RcState.upgradeExchange]
  split
  · next heq =>
    have hstrong : 0 < s.strong := by
      rw [← h.strong_eq, heq.1]
      exact Nat.pos_of_ne_zero hprev
    have hcount := h.weak_eq
    have hclear := h.clear_eq
    rw [if_pos hstrong] at hcount hclear
    refine ⟨?_, ?_, ?_, h.free_eq, fun _ ↦ hweak, huntouched⟩
    · change prev + 1 = s.strong + 1
      rw [← heq.1, h.strong_eq]
    · change s.weakCnt = s.weak + s.releasing + if 0 < s.strong + 1 then 1 else 0
      rw [if_pos (Nat.succ_pos _), hcount]
    · change s.cleared + s.releasing + s.freeing + s.clearing = if 0 < s.strong + 1 then 0 else 1
      rw [if_pos (Nat.succ_pos _), hclear]
  · exact ⟨h.strong_eq, h.weak_eq, h.clear_eq, h.free_eq, fun _ ↦ hweak, huntouched⟩

theorem weak_pos_of_upgrade (h : s.Inv) {prev : ℕ} (hk : s.upgrades[k]? = some prev) : 0 < s.weak :=
  h.borrowed fun hnil ↦ by simp [hnil] at hk

/-- The steps of the drops in progress keep the invariant, whatever the counts are. -/
theorem finishing (h : s.Inv) (hact : finishes act = true) {s' : RcState}
    (hstep : s.step act = some s') : s'.Inv := by
  have hclear := h.clear_eq
  have hfree := h.free_eq
  cases act with
  | decreaseWeak =>
    obtain ⟨hpos, rfl⟩ := of_guard hstep
    exact h.decreaseWeak hpos
  | freeBlock =>
    obtain ⟨hpos, rfl⟩ := of_guard hstep
    refine ⟨h.strong_eq, h.weak_eq, ?_, ?_, h.borrowed, h.untouched⟩
    · change s.cleared + s.releasing + (s.freeing - 1) + (s.clearing + 1) = _
      rw [← hclear]
      omega
    · change s.freed + 1 + (s.freeing - 1) + s.freeingWeak = _
      rw [← hfree]
      omega
  | clearValue =>
    obtain ⟨hpos, rfl⟩ := of_guard hstep
    refine ⟨h.strong_eq, h.weak_eq, ?_, h.free_eq, h.borrowed, h.untouched⟩
    change s.cleared + 1 + s.releasing + s.freeing + (s.clearing - 1) = _
    rw [← hclear]
    omega
  | freeBlockWeak =>
    obtain ⟨hpos, rfl⟩ := of_guard hstep
    refine ⟨h.strong_eq, h.weak_eq, h.clear_eq, ?_, h.borrowed, h.untouched⟩
    change s.freed + 1 + s.freeing + (s.freeingWeak - 1) = _
    rw [← hfree]
    omega
  | rcClone | rcCloneAsWeak | weakClone | rcDrop | weakDrop | upgradeLoad | upgradeExchange
  | upgradeFail => cases hact

/-- Every step keeps the invariant. -/
theorem step (h : s.Inv) (hstrong : s.strongCnt < rcMaxCount) (hweak : s.weakCnt < rcMaxCount)
    {act : RcAct} {s' : RcState} (hstep : s.step act = some s') : s'.Inv := by
  cases act with
  | rcClone =>
    obtain ⟨hpos, rfl⟩ := of_guard hstep
    exact h.rcClone hpos hstrong
  | rcCloneAsWeak =>
    obtain ⟨hpos, rfl⟩ := of_guard hstep
    exact h.weakClone (h.weakCnt_pos_of_strong hpos) hweak
  | weakClone =>
    obtain ⟨hpos, rfl⟩ := of_guard hstep
    exact h.weakClone (h.weakCnt_pos_of_weak hpos) hweak
  | rcDrop =>
    obtain ⟨hpos, rfl⟩ := of_guard hstep
    exact h.rcDrop hpos
  | decreaseWeak | freeBlock | clearValue | freeBlockWeak => exact h.finishing rfl hstep
  | weakDrop =>
    obtain ⟨⟨hpos, hborrowed⟩, rfl⟩ := of_guard hstep
    exact h.weakDrop hpos hborrowed
  | upgradeLoad =>
    obtain ⟨hpos, rfl⟩ := of_guard hstep
    exact ⟨h.strong_eq, h.weak_eq, h.clear_eq, h.free_eq, fun _ ↦ hpos,
      h.untouched_touch (h.weakCnt_pos_of_weak hpos)⟩
  | upgradeExchange k spurious =>
    obtain ⟨prev, hk, hrest⟩ := bind_eq_some_iff.1 hstep
    obtain ⟨hprev, rfl⟩ := of_guard hrest
    exact h.upgradeExchange (h.weak_pos_of_upgrade hk) hprev.1 spurious
  | upgradeFail k =>
    obtain ⟨prev, hk, hrest⟩ := bind_eq_some_iff.1 hstep
    obtain ⟨-, rfl⟩ := of_unless hrest
    exact ⟨h.strong_eq, h.weak_eq, h.clear_eq, h.free_eq, fun _ ↦ h.weak_pos_of_upgrade hk,
      h.untouched⟩

end Inv

theorem Reached.inv {s : RcState} (h : Reached s) : s.Inv := by
  induction h with
  | init => exact inv_init
  | step _ hbelow hstep ih => exact ih.step hbelow.1 hbelow.2 hstep

/-! ### Upgrades -/

/-- The counters and the handles are the same. -/
def SameCounts (s s' : RcState) : Prop :=
  s'.strongCnt = s.strongCnt ∧ s'.weakCnt = s.weakCnt ∧ s'.strong = s.strong ∧ s'.weak = s.weak

/-- One more strong handle, and nothing else in the counts -/
def OneMoreStrong (s s' : RcState) : Prop :=
  s'.strongCnt = s.strongCnt + 1 ∧ s'.weakCnt = s.weakCnt ∧ s'.strong = s.strong + 1 ∧
    s'.weak = s.weak

/-- One more weak handle, and nothing else in the counts -/
def OneMoreWeak (s s' : RcState) : Prop :=
  s'.strongCnt = s.strongCnt ∧ s'.weakCnt = s.weakCnt + 1 ∧ s'.strong = s.strong ∧
    s'.weak = s.weak + 1

theorem upgradeExchange_counts (s : RcState) (k prev : ℕ) (spurious : Bool) :
    s.strongCnt = prev ∧ OneMoreStrong s (s.upgradeExchange k prev spurious) ∨
      SameCounts s (s.upgradeExchange k prev spurious) := by
  rw [upgradeExchange]
  split
  · next heq => exact .inl ⟨heq.1, congrArg (· + 1) heq.1.symm, rfl, rfl, rfl⟩
  · exact .inr ⟨rfl, rfl, rfl, rfl⟩

/-- An exchange either takes a strong handle while one is there, or changes no count. -/
theorem Inv.upgrade_counts {s s' : RcState} (h : s.Inv) {spurious : Bool}
    (hstep : s.step (.upgradeExchange k spurious) = some s') :
    0 < s.strong ∧ OneMoreStrong s s' ∨ SameCounts s s' := by
  obtain ⟨prev, -, hrest⟩ := bind_eq_some_iff.1 hstep
  obtain ⟨hprev, rfl⟩ := of_guard hrest
  obtain ⟨heq, hmore⟩ | hsame := s.upgradeExchange_counts k prev spurious
  · refine .inl ⟨?_, hmore⟩
    rw [← h.strong_eq, heq]
    exact Nat.pos_of_ne_zero hprev.1
  · exact .inr hsame

/-- When the last strong handle went, no step makes one. -/
theorem Inv.strong_step_eq_zero {s s' : RcState} (h : s.Inv) (hnone : s.strong = 0)
    (hstep : s.step act = some s') : s'.strong = 0 := by
  cases act with
  | rcClone =>
    obtain ⟨hpos, -⟩ := of_guard hstep
    omega
  | rcCloneAsWeak =>
    obtain ⟨hpos, -⟩ := of_guard hstep
    omega
  | rcDrop =>
    obtain ⟨hpos, -⟩ := of_guard hstep
    omega
  | weakClone | decreaseWeak | freeBlock | clearValue | weakDrop | freeBlockWeak | upgradeLoad =>
    obtain ⟨-, rfl⟩ := of_guard hstep
    exact hnone
  | upgradeExchange k spurious =>
    obtain ⟨hpos, -⟩ | hsame := h.upgrade_counts hstep
    · omega
    · rw [hsame.2.2.1, hnone]
  | upgradeFail k =>
    obtain ⟨prev, -, hrest⟩ := bind_eq_some_iff.1 hstep
    obtain ⟨-, rfl⟩ := of_unless hrest
    exact hnone

/-! ### Handles and the end of a drop -/

theorem rcClone_counts {s : RcState} (hbelow : s.strongCnt < rcMaxCount) :
    OneMoreStrong s s.rcClone :=
  ⟨rfl, rfl, if_neg (Nat.not_le_of_lt hbelow), rfl⟩

theorem weakClone_counts {s : RcState} (hbelow : s.weakCnt < rcMaxCount) :
    OneMoreWeak s s.weakClone :=
  ⟨rfl, rfl, rfl, if_neg (Nat.not_le_of_lt hbelow)⟩

/-- A strong handle can be dropped at any time, and it is one less then. -/
theorem Inv.drop_counts {s : RcState} (h : s.Inv) (hpos : 0 < s.strong) :
    ∃ s', s.step .rcDrop = some s' ∧ OneMoreStrong s' s := by
  have hcount := h.strong_eq
  refine ⟨s.rcDrop, if_pos hpos, ?_, rfl, ?_, rfl⟩
  · change s.strongCnt = s.strongCnt - 1 + 1
    omega
  · change s.strong = s.strong - 1 + 1
    omega

/-- So can a weak handle, unless an upgrade has borrowed the last one. -/
theorem Inv.weakDrop_counts {s : RcState} (h : s.Inv) (hpos : 0 < s.weak)
    (hborrowed : 1 < s.weak ∨ s.upgrades = []) :
    ∃ s', s.step .weakDrop = some s' ∧ OneMoreWeak s' s := by
  have hcount := h.weakCnt_pos_of_weak hpos
  refine ⟨s.weakDrop, if_pos ⟨hpos, hborrowed⟩, rfl, ?_, rfl, ?_⟩
  · change s.weakCnt = s.weakCnt - 1 + 1
    omega
  · change s.weak = s.weak - 1 + 1
    omega

/-- An upgrade that holds the count takes a strong handle at its exchange. -/
theorem Inv.upgrade_takes {s : RcState} (h : s.Inv) (hk : s.upgrades[k]? = some s.strongCnt)
    (hpos : 0 < s.strong) (hbelow : s.strongCnt < rcMaxCount) :
    ∃ s', s.step (.upgradeExchange k false) = some s' ∧ OneMoreStrong s s' := by
  have hcount := h.strong_eq
  have hup : Upgradable s.strongCnt := ⟨by omega, hbelow⟩
  refine ⟨s.upgradeExchange k s.strongCnt false, ?_, ?_⟩
  · rw [RcState.step, hk, bind_some, if_pos hup]
  · rw [RcState.upgradeExchange, if_pos ⟨rfl, rfl⟩]
    exact ⟨rfl, rfl, rfl, rfl⟩

/-- Each step of a drop in progress brings it closer to its end, and leaves the handles. -/
theorem pending_step {s s' : RcState} (hact : finishes act = true) (hstep : s.step act = some s') :
    s'.pending < s.pending ∧ s'.strong = s.strong ∧ s'.weak = s.weak := by
  cases act with
  | decreaseWeak =>
    obtain ⟨hpos, rfl⟩ := of_guard hstep
    refine ⟨?_, rfl, rfl⟩
    simp only [pending, decreaseWeak, touch]
    split <;> omega
  | freeBlock | clearValue | freeBlockWeak =>
    obtain ⟨hpos, rfl⟩ := of_guard hstep
    refine ⟨?_, rfl, rfl⟩
    simp only [pending]
    omega
  | rcClone | rcCloneAsWeak | weakClone | rcDrop | weakDrop | upgradeLoad | upgradeExchange
  | upgradeFail => cases hact

/-- Where no drop can take a step, none is in progress. -/
theorem pending_eq_zero {s : RcState} (hstuck : ∀ act, finishes act = true → s.step act = none) :
    s.pending = 0 := by
  have hrel : ¬ 0 < s.releasing := fun hpos ↦
    some_ne_none _ ((if_pos hpos).symm.trans (hstuck .decreaseWeak rfl))
  have hfreeing : ¬ 0 < s.freeing := fun hpos ↦
    some_ne_none _ ((if_pos hpos).symm.trans (hstuck .freeBlock rfl))
  have hclearing : ¬ 0 < s.clearing := fun hpos ↦
    some_ne_none _ ((if_pos hpos).symm.trans (hstuck .clearValue rfl))
  have hweak : ¬ 0 < s.freeingWeak := fun hpos ↦
    some_ne_none _ ((if_pos hpos).symm.trans (hstuck .freeBlockWeak rfl))
  rw [pending]
  omega

/-- A run of the drops in progress is no longer than what is pending. -/
theorem Inv.run_finishing {s s' : RcState} (h : s.Inv) {acts : List RcAct}
    (hacts : ∀ act ∈ acts, finishes act = true) (hrun : s.run acts = some s') :
    s'.Inv ∧ acts.length + s'.pending ≤ s.pending ∧ s'.strong = s.strong ∧ s'.weak = s.weak := by
  induction acts generalizing s with
  | nil =>
    obtain rfl : s = s' := some.inj hrun
    exact ⟨h, Nat.le_of_eq (Nat.zero_add _), rfl, rfl⟩
  | cons act acts ih =>
    obtain ⟨mid, hstep, hrest⟩ := bind_eq_some_iff.1 hrun
    have hact := hacts act List.mem_cons_self
    obtain ⟨hless, hstrong, hweak⟩ := pending_step hact hstep
    obtain ⟨hinv, hle, hstrong', hweak'⟩ :=
      ih (h.finishing hact hstep) (fun a ha ↦ hacts a (List.mem_cons_of_mem _ ha)) hrest
    refine ⟨hinv, ?_, hstrong'.trans hstrong, hweak'.trans hweak⟩
    rw [List.length_cons]
    omega

/-! ### Runs -/

/-- What holds in every state. The value: as long as a strong handle is there it is not cleared and
no call is on its way to clear it; from then on it was cleared once, or one call will clear it. The
block: as long as there is a strong handle, a weak handle or an unreleased count it is not freed and
no call is on its way to free it; from then on it was freed once, or one call will free it. -/
structure Sound (s : RcState) : Prop where
  cleared_once : s.cleared + (s.releasing + s.freeing + s.clearing) = if 0 < s.strong then 0 else 1
  freed_once : s.freed + (s.freeing + s.freeingWeak) =
      if 0 < s.strong ∨ 0 < s.weak ∨ 0 < s.releasing then 0 else 1
  /-- The step of the last strong handle hands the value to a call that will clear it. -/
  last_strong : ∀ s', s.step .rcDrop = some s' → s'.strong = 0 → s.cleared = 0 ∧ s'.releasing = 1
  untouched : s.touchedFreed = false
  /-- The steps of the drops in progress, in any order, come to an end. Where they have, the value
  was cleared if no strong handle is left, and the block was freed if no handle is left. -/
  completes : ∀ acts s', (∀ act ∈ acts, finishes act = true) → s.run acts = some s' →
    acts.length ≤ s.pending ∧ ((∀ act, finishes act = true → s'.step act = none) →
        s'.cleared = (if 0 < s.strong then 0 else 1) ∧
          s'.freed = if 0 < s.strong ∨ 0 < s.weak then 0 else 1)
  clone : s.strongCnt < rcMaxCount → ∀ s', s.step .rcClone = some s' → OneMoreStrong s s'
  clone_weak : s.weakCnt < rcMaxCount → ∀ act s', act = .rcCloneAsWeak ∨ act = .weakClone →
    s.step act = some s' → OneMoreWeak s s'
  drop : 0 < s.strong → ∃ s', s.step .rcDrop = some s' ∧ OneMoreStrong s' s
  drop_weak : 0 < s.weak → 1 < s.weak ∨ s.upgrades = [] →
    ∃ s', s.step .weakDrop = some s' ∧ OneMoreWeak s' s
  upgrade_takes : ∀ k, s.upgrades[k]? = some s.strongCnt → 0 < s.strong → s.strongCnt < rcMaxCount →
      ∃ s', s.step (.upgradeExchange k false) = some s' ∧ OneMoreStrong s s'
  upgrade_alive : ∀ k spurious s', s.step (.upgradeExchange k spurious) = some s' →
    (0 < s.strong ∧ s.cleared = 0 ∧ s.clearing = 0 ∧ OneMoreStrong s s') ∨ SameCounts s s'
  upgrade_load : ∀ s', s.step .upgradeLoad = some s' → SameCounts s s'
  upgrade_fail : ∀ k s', s.step (.upgradeFail k) = some s' → SameCounts s s'
  not_resurrected : s.strong = 0 → ∀ act s', s.step act = some s' → s'.strong = 0

theorem Inv.freed_eq {s : RcState} (h : s.Inv) : s.freed + (s.freeing + s.freeingWeak) =
      if 0 < s.strong ∨ 0 < s.weak ∨ 0 < s.releasing then 0 else 1 := by
  have hfree := h.free_eq
  have hweak := h.weak_eq
  by_cases hstrong : 0 < s.strong
  · rw [if_pos hstrong] at hweak
    rw [if_pos (.inl hstrong), ← Nat.add_assoc, hfree, if_pos (by omega)]
  · rw [if_neg hstrong] at hweak
    rw [← Nat.add_assoc, hfree]
    refine if_congr ?_ rfl rfl
    omega

theorem Inv.last_strong {s s' : RcState} (h : s.Inv) (hstep : s.step .rcDrop = some s')
    (hlast : s'.strong = 0) : s.cleared = 0 ∧ s'.releasing = 1 := by
  have hclear := h.clear_eq
  have hcount := h.strong_eq
  obtain ⟨hpos, rfl⟩ := of_guard hstep
  change s.strong - 1 = 0 at hlast
  rw [if_pos hpos] at hclear
  refine ⟨by omega, ?_⟩
  change ite _ _ _ = 1
  rw [if_neg (by omega)]
  omega

theorem Inv.completes {s s' : RcState} (h : s.Inv) {acts : List RcAct}
    (hacts : ∀ act ∈ acts, finishes act = true) (hrun : s.run acts = some s') :
    acts.length ≤ s.pending ∧ ((∀ act, finishes act = true → s'.step act = none) →
        s'.cleared = (if 0 < s.strong then 0 else 1) ∧
          s'.freed = if 0 < s.strong ∨ 0 < s.weak then 0 else 1) := by
  obtain ⟨hinv, hle, hstrong, hweak⟩ := h.run_finishing hacts hrun
  refine ⟨Nat.le_trans (Nat.le_add_right _ _) hle, fun hstuck ↦ ?_⟩
  have hzero := pending_eq_zero hstuck
  have hclear := hinv.clear_eq
  have hfree := hinv.freed_eq
  rw [pending] at hzero
  rw [hstrong] at hclear hfree
  rw [hweak] at hfree
  have hrel : s'.releasing = 0 := by omega
  constructor
  · rw [← hclear]
    omega
  · rw [hrel] at hfree
    simp only [Nat.lt_irrefl, or_false] at hfree
    rw [← hfree]
    omega

/-- For any number of handles and any interleaving of the steps of their calls, the value is cleared
exactly once and the block is freed exactly once and not touched afterwards, and an upgrade succeeds
only while a strong handle is there. -/
theorem refcount_sound {s : RcState} (h : Reached s) : Sound s where
  cleared_once := by
    have hclear := h.inv.clear_eq
    rw [← hclear]
    omega
  freed_once := h.inv.freed_eq
  last_strong _ hstep hlast := h.inv.last_strong hstep hlast
  untouched := h.inv.untouched
  completes _ _ hacts hrun := h.inv.completes hacts hrun
  clone hbelow s' hstep := by
    obtain ⟨-, rfl⟩ := of_guard hstep
    exact rcClone_counts hbelow
  clone_weak hbelow act s' hact hstep := by
    obtain rfl | rfl := hact
    all_goals
      obtain ⟨-, rfl⟩ := of_guard hstep
      exact weakClone_counts hbelow
  drop hpos := h.inv.drop_counts hpos
  drop_weak hpos hborrowed := h.inv.weakDrop_counts hpos hborrowed
  upgrade_takes _ hk hpos hbelow := h.inv.upgrade_takes hk hpos hbelow
  upgrade_alive k spurious s' hstep := by
    have hclear := h.inv.clear_eq
    obtain ⟨hpos, hmore⟩ | hsame := h.inv.upgrade_counts hstep
    · rw [if_pos hpos] at hclear
      exact .inl ⟨hpos, by omega, by omega, hmore⟩
    · exact .inr hsame
  upgrade_load s' hstep := by
    obtain ⟨-, rfl⟩ := of_guard hstep
    exact ⟨rfl, rfl, rfl, rfl⟩
  upgrade_fail k s' hstep := by
    obtain ⟨prev, -, hrest⟩ := bind_eq_some_iff.1 hstep
    obtain ⟨-, rfl⟩ := of_unless hrest
    exact ⟨rfl, rfl, rfl, rfl⟩
  not_resurrected hnone _ _ hstep := h.inv.strong_step_eq_zero hnone hstep

/-- A second strong handle and a weak one are made; an upgrade loses its first exchange to a drop
and takes the handle at its second; the last strong handle goes, a late upgrade fails, the value is
cleared, the weak handle goes and takes the block with it. -/
def wholeLife : List RcAct :=
  [.rcCloneAsWeak, .rcClone, .upgradeLoad, .rcDrop, .upgradeExchange 0 false,
    .upgradeExchange 0 false, .rcDrop, .rcDrop, .upgradeLoad, .decreaseWeak, .upgradeFail 0,
    .clearValue, .weakDrop, .freeBlockWeak]

theorem refcount_sound_wholeLife :
    ∃ s, wholeLife.foldlM stepBelow init = some s ∧ s.cleared = 1 ∧ s.freed = 1 ∧
      s.weakCnt = 0 ∧ Sound s :=
  ⟨_, rfl, rfl, rfl, rfl, refcount_sound (Reached.init.run wholeLife rfl)⟩

end RcState

end ZenohPico.Collections
