import Mathlib.Data.Nat.Basic
import Mathlib.Order.RelClasses
import Mathlib.Tactic.Common

/-!
Loops that may not end, run with a budget of passes. A budgeted computation is a function
`ℕ → Option ρ`: at a given budget it has either produced its result or run out. It *settles* on a
result when every large enough budget produces that result. `Computes f o` says more: `f` never
produces anything but `o`, and does produce `o` when the budget is large; with `o = none` this says
that no budget is ever enough. It is established one loop pass at a time by the rules below, which
is all a proof about a loop with nested loops needs.
-/

open Option

namespace ZenohPico.Foundations

variable {σ ρ τ : Type*}

/-! ### Budgeted computations -/

/-- Every large enough budget produces `r`. -/
def Settles (f : ℕ → Option ρ) (r : ρ) : Prop :=
  ∃ n, ∀ m, n ≤ m → f m = some r

/-- Some budget is enough. -/
def Terminates (f : ℕ → Option ρ) : Prop :=
  ∃ n r, f n = some r

/-- The outcome of the computation is `o`, where `none` is to run for ever. -/
def Computes (f : ℕ → Option ρ) (o : Option ρ) : Prop :=
  (∀ n, f n = none ∨ f n = o) ∧ ∃ N, ∀ n, N ≤ n → f n = o

variable {f : ℕ → Option ρ}

theorem settles_const {r : ρ} (h : ∀ n, f n = some r) : Settles f r :=
  ⟨0, fun n _ ↦ h n⟩

theorem Settles.congr {g : ℕ → Option ρ} {r : ρ} (h : Settles f r) (hfg : ∀ n, g n = f n) :
    Settles g r := by
  obtain ⟨n, hn⟩ := h
  exact ⟨n, fun m hm ↦ (hfg m).trans (hn m hm)⟩

/-- With enough budget there is one result. -/
theorem Settles.unique {r r' : ρ} (h : Settles f r) (h' : Settles f r') : r = r' := by
  obtain ⟨n, hn⟩ := h
  obtain ⟨k, hk⟩ := h'
  exact some.inj ((hn _ (le_max_left n k)).symm.trans (hk _ (le_max_right n k)))

theorem computes_const {o : Option ρ} (h : ∀ n, f n = o) : Computes f o :=
  ⟨fun n ↦ Or.inr (h n), 0, fun n _ ↦ h n⟩

theorem Computes.settles {r : ρ} (h : Computes f (some r)) : Settles f r :=
  h.2

theorem Computes.unique {o o' : Option ρ} (h : Computes f o) (h' : Computes f o') : o = o' := by
  obtain ⟨N, hN⟩ := h.2
  obtain ⟨K, hK⟩ := h'.2
  exact (hN _ (le_max_left N K)).symm.trans (hK _ (le_max_right N K))

theorem Computes.eq_of_eq_some {f : ℕ → Option ρ} {o : Option ρ} (h : Computes f o) {n : ℕ} {r : ρ}
    (hr : f n = some r) : o = some r := by
  rcases h.1 n with hn | hn
  · rw [hr] at hn
    exact absurd hn (by simp)
  · rw [← hn, hr]

/-- A computation that spends one unit of budget before it starts. -/
theorem Computes.succ {o : Option ρ} (hzero : f 0 = none) (h : Computes (fun n ↦ f (n + 1)) o) :
    Computes f o := by
  obtain ⟨hall, N, hN⟩ := h
  constructor
  · intro n
    cases n with
    | zero => exact Or.inl hzero
    | succ n => exact hall n
  · refine ⟨N + 1, fun n hn ↦ ?_⟩
    obtain ⟨k, rfl⟩ : ∃ k, n = k + 1 := ⟨n - 1, by omega⟩
    exact hN k (by omega)

/-- One computation after another, the second chosen by the result of the first. -/
theorem Computes.bind {g : ℕ → ρ → Option τ} {o : Option ρ} {h : ρ → Option τ} (hf : Computes f o)
    (hg : ∀ a, o = some a → Computes (fun n ↦ g n a) (h a)) :
    Computes (fun n ↦ (f n).bind (g n)) (o.bind h) := by
  obtain ⟨hall, N, hN⟩ := hf
  cases o with
  | none =>
    have hnone : ∀ n, f n = none := fun n ↦ (hall n).elim id id
    exact computes_const fun n ↦ by simp only [hnone n, bind_none]
  | some a =>
    obtain ⟨hall', K, hK⟩ := hg a rfl
    constructor
    · intro n
      rcases hall n with hn | hn
      · exact Or.inl (by simp only [hn, bind_none])
      · simp only [hn, bind_some]
        exact hall' n
    · refine ⟨max N K, fun n hn ↦ ?_⟩
      simp only [hN n (by omega), bind_some]
      exact hK n (by omega)

theorem Computes.map {o : Option ρ} (hf : Computes f o) (g : ρ → τ) :
    Computes (fun n ↦ (f n).map g) (o.map g) := by
  simp only [map_eq_bind]
  exact hf.bind fun a _ ↦ computes_const fun _ ↦ rfl

/-! ### Loops -/

/-- What one pass of a loop body does: go round again, or leave with a result. -/
inductive Pass (σ ρ : Type*)
  | next (state : σ)
  | done (result : ρ)
  deriving DecidableEq, Repr

/-- Run a loop body from a state for at most the given number of passes. The body itself may run
out of budget, since it may hold loops of its own. -/
def runLoop (body : σ → Option (Pass σ ρ)) : ℕ → σ → Option ρ
  | 0, _ => none
  | n + 1, s =>
    (body s).bind fun
      | .next t => runLoop body n t
      | .done r => some r

/-- From `s`, the outcome of the loop is `o`, for a body with a budget of its own. -/
def LoopComputes (body : ℕ → σ → Option (Pass σ ρ)) (s : σ) (o : Option ρ) : Prop :=
  (∀ n k, runLoop (body n) k s = none ∨ runLoop (body n) k s = o) ∧
    ∃ N, ∀ n k, N ≤ n → N ≤ k → runLoop (body n) k s = o

section Rules

variable {body : ℕ → σ → Option (Pass σ ρ)} {s t : σ} {o : Option ρ}

theorem LoopComputes.computes (h : LoopComputes body s o) :
    Computes (fun n ↦ runLoop (body n) n s) o := by
  obtain ⟨hall, N, hN⟩ := h
  exact ⟨fun n ↦ hall n n, N, fun n hn ↦ hN n n hn hn⟩

/-- The pass from `s` leaves the loop with what another computation produces. -/
theorem loopComputes_done (h : Computes (fun n ↦ body n s) (o.map .done)) :
    LoopComputes body s o := by
  obtain ⟨hall, N, hN⟩ := h
  beta_reduce at hall hN
  have hrun : ∀ n k, body n s = o.map .done → runLoop (body n) (k + 1) s = o := by
    intro n k hn
    rw [runLoop, hn]
    cases o <;> rfl
  constructor
  · intro n k
    cases k with
    | zero => exact Or.inl rfl
    | succ k =>
      rcases hall n with hn | hn
      · exact Or.inl (by rw [runLoop, hn, bind_none])
      · exact Or.inr (hrun n k hn)
  · refine ⟨N + 1, fun n k hn hk ↦ ?_⟩
    obtain ⟨k, rfl⟩ : ∃ j, k = j + 1 := ⟨k - 1, by omega⟩
    exact hrun n k (hN n (by omega))

/-- The pass from `s` leaves the loop with `r`. -/
theorem loopComputes_exit {r : ρ} (h : ∀ n, body n s = some (.done r)) :
    LoopComputes body s (some r) :=
  loopComputes_done (computes_const h)

/-- The pass from `s` goes round to `t`. -/
theorem loopComputes_next (h : Computes (fun n ↦ body n s) (some (.next t)))
    (ht : LoopComputes body t o) : LoopComputes body s o := by
  obtain ⟨hall, N, hN⟩ := h
  obtain ⟨hall', K, hK⟩ := ht
  beta_reduce at hall hN
  constructor
  · intro n k
    cases k with
    | zero => exact Or.inl rfl
    | succ k =>
      rcases hall n with hn | hn
      · exact Or.inl (by rw [runLoop, hn, bind_none])
      · rw [runLoop, hn, bind_some]
        exact hall' n k
  · refine ⟨max N K + 1, fun n k hn hk ↦ ?_⟩
    obtain ⟨k, rfl⟩ : ∃ j, k = j + 1 := ⟨k - 1, by omega⟩
    rw [runLoop, hN n (by omega), bind_some]
    exact hK n k (by omega) (by omega)

/-- The pass from `s` never comes back. -/
theorem loopComputes_stuck (h : Computes (fun n ↦ body n s) none) : LoopComputes body s none :=
  loopComputes_done h

/-- A state the body maps to itself is never left. -/
theorem loopComputes_fixed (h : Computes (fun n ↦ body n s) (some (.next s))) :
    LoopComputes body s none := by
  have hall := h.1
  beta_reduce at hall
  have hnone : ∀ n k, runLoop (body n) k s = none := by
    intro n k
    induction k with
    | zero => rfl
    | succ k ih =>
      rcases hall n with hn | hn
      · rw [runLoop, hn, bind_none]
      · rw [runLoop, hn, bind_some]
        exact ih
  exact ⟨fun n k ↦ Or.inl (hnone n k), 0, fun n k _ _ ↦ hnone n k⟩

end Rules

/-! ### Where a loop never comes back -/

/-- The computation comes to something, and runs for ever exactly where `P` says. -/
def StallsIff (f : ℕ → Option ρ) (P : Prop) : Prop :=
  ∃ o, Computes f o ∧ (o = none ↔ P)

section Stalls

variable {P Q : Prop} {body : ℕ → σ → Option (Pass σ ρ)} {s t : σ}

theorem StallsIff.succ (hzero : f 0 = none) (h : StallsIff (fun n ↦ f (n + 1)) P) :
    StallsIff f P := by
  obtain ⟨o, ho, hP⟩ := h
  exact ⟨o, ho.succ hzero, hP⟩

end Stalls

/-! ### Loops whose body always comes back -/

section Ends

variable {pass : σ → Pass σ ρ} {s t : σ} {r r' : ρ}

/-- From `s` the loop ends with `r`, if it has passes enough. -/
def Ends (pass : σ → Pass σ ρ) (s : σ) (r : ρ) : Prop :=
  ∃ n, runLoop (fun s ↦ some (pass s)) n s = some r

theorem ends_of_done (h : pass s = .done r') : Ends pass s r ↔ r = r' := by
  constructor
  · rintro ⟨n, hn⟩
    cases n with
    | zero => cases hn
    | succ n =>
      rw [runLoop, h] at hn
      exact (some.inj hn).symm
  · rintro rfl
    exact ⟨1, by rw [runLoop, h, bind_some]⟩

theorem ends_of_next (h : pass s = .next t) : Ends pass s r ↔ Ends pass t r := by
  constructor
  · rintro ⟨n, hn⟩
    cases n with
    | zero => cases hn
    | succ n =>
      rw [runLoop, h] at hn
      exact ⟨n, hn⟩
  · rintro ⟨n, hn⟩
    exact ⟨n + 1, by rw [runLoop, h]; exact hn⟩

theorem Ends.unique (h : Ends pass s r) (h' : Ends pass s r') : r = r' := by
  obtain ⟨n, hn⟩ := h
  induction n generalizing s with
  | zero => cases hn
  | succ n ih =>
    rw [runLoop, bind_some] at hn
    cases hpass : pass s with
    | done r₁ =>
      rw [hpass] at hn
      exact (some.inj hn).symm.trans ((ends_of_done hpass).mp h').symm
    | next t =>
      rw [hpass] at hn
      exact ih ((ends_of_next hpass).mp h') hn

end Ends

end ZenohPico.Foundations
