import Mathlib.Data.List.Basic
import Mathlib.Tactic.ByContra
import Mathlib.Tactic.SplitIfs
import Mathlib.Tactic.TypeStar

/-!
Parts of a list between separators, and the first place of a word in a list.

A word without separators is a part if and only if it stands between two of them, where the ends of
the list count as well (`mem_splitOn_iff`).
-/

open List Option

namespace ZenohPico.Foundations

variable {α : Type*}

/-! ### Parts -/

/-- A part in a list of parts, with what stands before and behind it -/
theorem exists_of_mem_intercalate {sep : α} {part : List α} {parts : List (List α)}
    (h : part ∈ parts) : ∃ before after, [sep].intercalate parts = before ++ (part ++ after) ∧
      (before = [] ∨ before.getLast? = some sep) ∧ (after = [] ∨ after.head? = some sep) := by
  induction parts with
  | nil => exact absurd h not_mem_nil
  | cons first rest ih =>
    cases rest with
    | nil =>
      rw [mem_singleton] at h
      refine ⟨[], [], ?_, .inl rfl, .inl rfl⟩
      rw [h, append_nil]
      exact append_nil _
    | cons second rest =>
      have hjoin : [sep].intercalate (first :: second :: rest) =
          first ++ sep :: [sep].intercalate (second :: rest) := by
        rw [intercalate_cons_cons, append_assoc]
        rfl
      rw [hjoin]
      rcases mem_cons.mp h with rfl | hmem
      · exact ⟨[], _, rfl, .inl rfl, .inr rfl⟩
      · obtain ⟨before, after, heq, hbefore, hafter⟩ := ih hmem
        refine ⟨first ++ sep :: before, after, ?_, .inr ?_, hafter⟩
        · rw [heq, append_assoc, cons_append]
        · rw [List.getLast?_append, List.getLast?_cons, some_or]
          rcases hbefore with rfl | hlast
          · rfl
          · rw [hlast, getD_some]

/-- Parts with a separator between them, or nothing where there is no part -/
def joined (sep : α) : List (List α) → Option (List α)
  | [] => none
  | part :: parts => some ([sep].intercalate (part :: parts))

variable {sep : α}

theorem joined_of_ne_nil {parts : List (List α)} (h : parts ≠ []) :
    joined sep parts = some ([sep].intercalate parts) := by
  cases parts with
  | nil => exact absurd rfl h
  | cons part parts => rfl

theorem intercalate_concat {front : List (List α)} (h : front ≠ []) (last : List α) :
    [sep].intercalate (front ++ [last]) = [sep].intercalate front ++ sep :: last := by
  induction front with
  | nil => exact absurd rfl h
  | cons part front ih =>
    cases front with
    | nil => simp
    | cons next front =>
      have hrest := ih (cons_ne_nil _ _)
      rw [cons_append, intercalate_cons_of_ne_nil (by simp),
        intercalate_cons_of_ne_nil (cons_ne_nil _ _), hrest, append_assoc,
        append_assoc, append_assoc]

variable [DecidableEq α]

theorem mem_splitOn_iff {part l : List α} (hfree : sep ∉ part) :
    part ∈ l.splitOn sep ↔ ∃ before after, l = before ++ (part ++ after) ∧
      (before = [] ∨ before.getLast? = some sep) ∧ (after = [] ∨ after.head? = some sep) := by
  constructor
  · intro h
    have hparts := @exists_of_mem_intercalate _ sep _ _ h
    rwa [intercalate_splitOn] at hparts
  · rintro ⟨before, after, rfl, hbefore, hafter⟩
    have hpart : part ∈ (part ++ after).splitOn sep := by
      rcases hafter with rfl | hhead
      · rw [append_nil, splitOn_eq_singleton hfree]
        exact mem_singleton_self part
      · obtain ⟨rest, rfl⟩ := List.head?_eq_some_iff.mp hhead
        rw [splitOn_append_cons_self_of_not_mem hfree]
        exact mem_cons_self
    rcases hbefore with rfl | hlast
    · exact hpart
    · obtain ⟨front, rfl⟩ := List.getLast?_eq_some_iff.mp hlast
      rw [append_assoc, singleton_append, splitOn_append_cons_self]
      exact mem_append_right _ hpart

/-! ### The first place of a word -/

/-- The first place in a list where a word starts -/
def firstPlace (word : List α) : List α → Option ℕ
  | [] => if word = [] then some 0 else none
  | x :: l => if word.isPrefixOf (x :: l) then some 0 else (firstPlace word l).map (· + 1)

variable {word l : List α}

theorem firstPlace_eq_none_iff : firstPlace word l = none ↔ ∀ i, ¬ word <+: l.drop i := by
  induction l with
  | nil =>
    rw [firstPlace]
    split_ifs with h
    · exact iff_of_false not_false fun hno ↦ hno 0 (h ▸ nil_prefix)
    · refine iff_of_true rfl fun i hstarts ↦ h ?_
      rw [drop_nil] at hstarts
      exact prefix_nil.mp hstarts
  | cons x l ih =>
    rw [firstPlace]
    split_ifs with h
    · exact iff_of_false not_false
        fun hno ↦ hno 0 (List.isPrefixOf_iff_prefix.mp h)
    · rw [map_eq_none_iff, ih]
      constructor
      · rintro hno (_ | i)
        · exact fun hstarts ↦ h (List.isPrefixOf_iff_prefix.mpr hstarts)
        · exact hno i
      · exact fun hno i ↦ hno (i + 1)

theorem firstPlace_eq_some_iff {n : ℕ} : firstPlace word l = some n ↔
    word <+: l.drop n ∧ n ≤ l.length ∧ ∀ i < n, ¬ word <+: l.drop i := by
  induction l generalizing n with
  | nil =>
    rw [firstPlace, drop_nil, prefix_nil, length_nil, Nat.le_zero]
    split_ifs with h
    · rw [some.injEq]
      exact ⟨fun hn ↦ ⟨h, hn.symm, fun i hi ↦ absurd (hn ▸ hi) (Nat.not_lt_zero i)⟩,
        fun hn ↦ hn.2.1.symm⟩
    · exact iff_of_false not_false fun hn ↦ h hn.1
  | cons x l ih =>
    rw [firstPlace]
    split_ifs with h
    · have hzero := List.isPrefixOf_iff_prefix.mp h
      rw [some.injEq]
      constructor
      · rintro rfl
        exact ⟨hzero, Nat.zero_le _, fun i hi ↦ absurd hi (Nat.not_lt_zero i)⟩
      · rintro ⟨-, -, hfirst⟩
        by_contra hne
        exact hfirst 0 (Nat.pos_of_ne_zero (Ne.symm hne)) hzero
    · rw [map_eq_some_iff]
      constructor
      · rintro ⟨m, hm, rfl⟩
        obtain ⟨hstarts, hle, hfirst⟩ := ih.mp hm
        refine ⟨hstarts, Nat.succ_le_succ hle, ?_⟩
        rintro (_ | i) hi
        · exact fun hzero ↦ h (List.isPrefixOf_iff_prefix.mpr hzero)
        · exact hfirst i (Nat.lt_of_succ_lt_succ hi)
      · rintro ⟨hstarts, hle, hfirst⟩
        cases n with
        | zero => exact absurd (List.isPrefixOf_iff_prefix.mpr hstarts) h
        | succ n =>
          exact ⟨n, ih.mpr ⟨hstarts, Nat.le_of_succ_le_succ hle,
            fun i hi ↦ hfirst (i + 1) (Nat.succ_lt_succ hi)⟩, rfl⟩

variable {x : α}

/-- A word whose first letter is nowhere has no place. -/
theorem firstPlace_of_not_mem (h : x ∉ l) (word : List α) : firstPlace (x :: word) l = none := by
  rw [firstPlace_eq_none_iff]
  rintro i ⟨rest, hrest⟩
  refine h (mem_of_mem_drop (i := i) ?_)
  rw [← hrest]
  exact mem_cons_self

/-- A word stands behind what has its first letter nowhere. -/
theorem firstPlace_append {front : List α} (h : x ∉ front) (word rest : List α) :
    firstPlace (x :: word) (front ++ (x :: word ++ rest)) = some front.length := by
  refine firstPlace_eq_some_iff.mpr ⟨?_, ?_, ?_⟩
  · rw [drop_left]
    exact prefix_append _ _
  · rw [length_append]
    exact Nat.le_add_right _ _
  · rintro i hi ⟨after, hafter⟩
    have hget : (front ++ (x :: word ++ rest))[i]? = some x := by
      rw [← Nat.add_zero i, ← List.getElem?_drop, ← hafter]
      rfl
    rw [List.getElem?_append_left hi] at hget
    exact h (mem_of_getElem? hget)

end ZenohPico.Foundations
