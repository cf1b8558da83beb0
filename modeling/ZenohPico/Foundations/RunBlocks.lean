import Mathlib.Data.List.Basic
import Mathlib.Tactic.Common

/-!
Lists as runs without a mark.

A list is cut at the occurrences of a mark and, so that no run gets longer than a bound, after every
run that reaches the bound. The runs alone give the list back: there is a mark behind each run that
does not reach the bound, except for the last one (`joinRuns_runs`). A cut that no mark accounts for
is one at a run that reaches the bound, and `fullRuns` counts them.
-/

open List

namespace ZenohPico.Foundations

variable {α : Type*} [DecidableEq α] (mark : α) (bound : ℕ)

/-- The runs of a list, when the first one has begun with `run` -/
def runsFrom : List α → List α → List (List α)
  | run, [] => [run]
  | run, x :: xs =>
    if x = mark then run :: runsFrom [] xs
    else if run.length + 1 = bound then (run ++ [x]) :: runsFrom [] xs
    else runsFrom (run ++ [x]) xs

/-- The list with these runs -/
def joinRuns : List (List α) → List α
  | [] => []
  | [run] => run
  | run :: run' :: runs =>
    run ++ (if run.length = bound then [] else [mark]) ++ joinRuns (run' :: runs)

/-- The number of runs that reach the bound, when the first one has `n` elements already -/
def fullRuns : ℕ → List α → ℕ
  | _, [] => 0
  | n, x :: xs =>
    if x = mark then fullRuns 0 xs
    else if n + 1 = bound then fullRuns 0 xs + 1
    else fullRuns (n + 1) xs

section Runs

variable {mark bound} {run xs : List α}

theorem runsFrom_ne_nil : runsFrom mark bound run xs ≠ [] := by
  induction xs generalizing run with
  | nil => exact cons_ne_nil _ _
  | cons x xs ih =>
    rw [runsFrom]
    split_ifs
    · exact cons_ne_nil _ _
    · exact cons_ne_nil _ _
    · exact ih

omit [DecidableEq α] in
theorem joinRuns_cons {runs : List (List α)} (h : runs ≠ []) (run : List α) :
    joinRuns mark bound (run :: runs) =
      run ++ (if run.length = bound then [] else [mark]) ++ joinRuns mark bound runs := by
  obtain ⟨run', runs, rfl⟩ := exists_cons_of_ne_nil h
  rw [joinRuns]

/-- The runs give the list back. -/
theorem joinRuns_runsFrom (h : run.length < bound) :
    joinRuns mark bound (runsFrom mark bound run xs) = run ++ xs := by
  induction xs generalizing run with
  | nil => rw [runsFrom, joinRuns, append_nil]
  | cons x xs ih =>
    have hzero : ([] : List α).length < bound := Nat.zero_lt_of_lt h
    rw [runsFrom]
    split_ifs with hmark hfull
    · rw [joinRuns_cons runsFrom_ne_nil, if_neg (Nat.ne_of_lt h), ih hzero, hmark, nil_append,
        append_assoc, singleton_append]
    · have hlen : (run ++ [x]).length = bound := by
        rw [length_append, length_singleton, hfull]
      rw [joinRuns_cons runsFrom_ne_nil, if_pos hlen, ih hzero, nil_append, append_nil,
        append_assoc, singleton_append]
    · have hlen : (run ++ [x]).length < bound := by
        rw [length_append, length_singleton]
        omega
      rw [ih hlen, append_assoc, singleton_append]

theorem joinRuns_runs (hbound : 0 < bound) (xs : List α) :
    joinRuns mark bound (runsFrom mark bound [] xs) = xs := joinRuns_runsFrom hbound

/-- No run has a mark or gets longer than the bound. -/
theorem mem_runsFrom (hrun : run.length < bound) (hmark : mark ∉ run) {r : List α}
    (h : r ∈ runsFrom mark bound run xs) : mark ∉ r ∧ r.length ≤ bound := by
  induction xs generalizing run with
  | nil =>
    obtain rfl := mem_singleton.mp h
    exact ⟨hmark, Nat.le_of_lt hrun⟩
  | cons x xs ih =>
    have hzero : ([] : List α).length < bound := Nat.zero_lt_of_lt hrun
    rw [runsFrom] at h
    split_ifs at h with hx hfull
    · rcases mem_cons.mp h with rfl | h
      · exact ⟨hmark, Nat.le_of_lt hrun⟩
      · exact ih hzero not_mem_nil h
    · rcases mem_cons.mp h with rfl | h
      · refine ⟨?_, ?_⟩
        · rw [mem_append, mem_singleton, not_or]
          exact ⟨hmark, Ne.symm hx⟩
        · rw [length_append, length_singleton]
          exact Nat.le_of_eq hfull
      · exact ih hzero not_mem_nil h
    · refine ih ?_ ?_ h
      · rw [length_append, length_singleton]
        omega
      · rw [mem_append, mem_singleton, not_or]
        exact ⟨hmark, Ne.symm hx⟩

/-- The runs take one place more than the list, and one more for each that reaches the bound. -/
theorem length_runsFrom :
    (runsFrom mark bound run xs).length + (runsFrom mark bound run xs).flatten.length =
      run.length + xs.length + fullRuns mark bound run.length xs + 1 := by
  induction xs generalizing run with
  | nil =>
    rw [runsFrom, fullRuns, flatten_singleton, length_singleton, length_nil]
    omega
  | cons x xs ih =>
    have hnil := @ih []
    rw [length_nil] at hnil
    rw [runsFrom, fullRuns, length_cons]
    split_ifs
    · rw [length_cons, flatten_cons, length_append]
      omega
    · rw [length_cons, flatten_cons, length_append, length_append, length_singleton]
      omega
    · have hstep := @ih (run ++ [x])
      rw [length_append, length_singleton] at hstep
      omega

/-- Runs that reach the bound are that long. -/
theorem mul_fullRuns_le (mark : α) (bound n : ℕ) (xs : List α) :
    bound * fullRuns mark bound n xs ≤ n + xs.length := by
  induction xs generalizing n with
  | nil => exact Nat.zero_le _
  | cons x xs ih =>
    have hzero := ih 0
    rw [fullRuns, length_cons]
    split_ifs with hx hfull
    · omega
    · rw [Nat.mul_succ]
      omega
    · have hstep := ih (n + 1)
      omega

end Runs

end ZenohPico.Foundations
