import Mathlib.Data.List.Nodup

/-!
Lists that are searched from the front.

A list is updated at the first element that satisfies a predicate, and an element is removed the
same way. Where the elements have distinct keys, this is what happens to all elements of a key.
-/

open List

namespace ZenohPico.Foundations

variable {α β : Type*}

/-- The first element that satisfies `p` changed -/
def updateFirst (p : α → Bool) (f : α → α) : List α → List α
  | [] => []
  | x :: xs => if p x then f x :: xs else x :: updateFirst p f xs

variable {p : α → Bool} {f : α → α} {g : α → β} {x : α} {a : β}

theorem map_updateFirst (hf : ∀ x, g (f x) = g x) (xs : List α) :
    (updateFirst p f xs).map g = xs.map g := by
  induction xs with
  | nil => rfl
  | cons x xs ih =>
    rw [updateFirst]
    split
    · rw [map_cons, map_cons, hf]
    · rw [map_cons, map_cons, ih]

variable {xs : List α}

theorem mem_updateFirst {y : α} (h : y ∈ updateFirst p f xs) :
    y ∈ xs ∨ ∃ x, xs.find? p = some x ∧ y = f x := by
  induction xs with
  | nil => cases h
  | cons x xs ih =>
    rw [updateFirst] at h
    by_cases hx : p x = true
    · rw [if_pos hx] at h
      rcases mem_cons.mp h with rfl | h
      · exact .inr ⟨x, List.find?_cons_of_pos hx, rfl⟩
      · exact .inl (mem_cons_of_mem _ h)
    · rw [if_neg hx] at h
      rcases mem_cons.mp h with rfl | h
      · exact .inl mem_cons_self
      · rw [List.find?_cons_of_neg hx]
        exact (ih h).imp_left (mem_cons_of_mem _)

theorem find?_updateFirst (hx : xs.find? p = some x) (hf : p (f x) = true) :
    (updateFirst p f xs).find? p = some (f x) := by
  induction xs with
  | nil => cases hx
  | cons y ys ih =>
    rw [updateFirst]
    by_cases hy : p y = true
    · rw [List.find?_cons_of_pos hy, Option.some.injEq] at hx
      subst hx
      rw [if_pos hy, List.find?_cons_of_pos hf]
    · rw [List.find?_cons_of_neg hy] at hx
      rw [if_neg hy, List.find?_cons_of_neg hy, ih hx]

variable [DecidableEq β]

theorem find?_of_mem (h : (xs.map g).Nodup) (hx : x ∈ xs) (hg : g x = a) :
    xs.find? (g · = a) = some x := by
  cases hfind : xs.find? (g · = a) with
  | none => simpa [hg] using List.find?_eq_none.mp hfind x hx
  | some found =>
    have hfound : g found = a := by simpa using List.find?_some hfind
    rw [inj_on_of_nodup_map h (mem_of_find?_eq_some hfind) hx (hfound.trans hg.symm)]

theorem updateFirst_eq_map (h : (xs.map g).Nodup) :
    updateFirst (g · = a) f xs = xs.map fun x ↦ if g x = a then f x else x := by
  induction xs with
  | nil => rfl
  | cons x xs ih =>
    rw [map_cons, nodup_cons] at h
    rw [updateFirst, map_cons]
    by_cases hx : g x = a
    · rw [if_pos (by simpa using hx), if_pos hx]
      have hrest : xs.map (fun x ↦ if g x = a then f x else x) = xs.map fun x ↦ x :=
        map_congr_left fun y hy ↦
          if_neg fun hy' : g y = a ↦ h.1 (hx.trans hy'.symm ▸ mem_map_of_mem hy)
      rw [hrest, map_id']
    · rw [if_neg (by simpa using hx), if_neg hx, ih h.2]

theorem eraseP_eq_filter (h : (xs.map g).Nodup) : xs.eraseP (g · = a) = xs.filter (g · ≠ a) := by
  induction xs with
  | nil => rfl
  | cons x xs ih =>
    rw [map_cons, nodup_cons] at h
    by_cases hx : g x = a
    · rw [eraseP_cons_of_pos (by simpa using hx), filter_cons_of_neg (by simpa using hx)]
      refine (filter_eq_self.mpr fun y hy ↦ ?_).symm
      simpa using fun hy' : g y = a ↦ h.1 (hx.trans hy'.symm ▸ mem_map_of_mem hy)
    · rw [eraseP_cons_of_neg (by simpa using hx), filter_cons_of_pos (by simpa using hx), ih h.2]

/-- What an update does not change is found as before. -/
theorem map_find?_updateFirst {γ : Type*} {k : α → γ} (hg : ∀ x, g (f x) = g x)
    (hk : ∀ x, k (f x) = k x) (b : β) (xs : List α) :
    ((updateFirst p f xs).find? (g · = b)).map k = (xs.find? (g · = b)).map k := by
  induction xs with
  | nil => rfl
  | cons x xs ih =>
    rw [updateFirst]
    split
    · by_cases hx : g x = b <;> simp [hx, hg, hk]
    · by_cases hx : g x = b <;> simp [hx, ih]

theorem find?_eraseP_of_ne {b : β} (h : b ≠ a) (xs : List α) :
    (xs.eraseP (g · = a)).find? (g · = b) = xs.find? (g · = b) := by
  induction xs with
  | nil => rfl
  | cons x xs ih =>
    by_cases hx : g x = a
    · have hb : g x ≠ b := fun hxb ↦ h (hxb.symm.trans hx)
      rw [eraseP_cons_of_pos (by simpa using hx), List.find?_cons_of_neg (by simpa using hb)]
    · rw [eraseP_cons_of_neg (by simpa using hx), List.find?_cons, List.find?_cons, ih]

/-- The first element of a key is the only one exactly when none is found after it is removed. -/
theorem find?_eraseP_eq_none :
    (xs.eraseP (g · = a)).find? (g · = a) = none ↔ xs.countP (g · = a) ≤ 1 := by
  induction xs with
  | nil => simp
  | cons x xs ih =>
    by_cases hx : g x = a
    · rw [eraseP_cons_of_pos (by simpa using hx), countP_cons_of_pos (by simpa using hx),
        List.find?_eq_none, ← countP_eq_zero]
      omega
    · rw [eraseP_cons_of_neg (by simpa using hx), countP_cons_of_neg (by simpa using hx),
        List.find?_cons_of_neg (by simpa using hx), ih]

variable [DecidableEq α]

/-- With distinct keys the first element of a key is the only one. -/
theorem updateFirst_eq_map_of_mem (h : (xs.map g).Nodup) (hx : x ∈ xs) (hg : g x = a) :
    updateFirst (g · = a) f xs = xs.map fun y ↦ if y = x then f y else y := by
  rw [updateFirst_eq_map h]
  refine map_congr_left fun y hy ↦ if_congr ⟨fun hya ↦ ?_, fun hyx ↦ hyx ▸ hg⟩ rfl rfl
  exact inj_on_of_nodup_map h hy hx (hya.trans hg.symm)

theorem eraseP_eq_filter_of_mem (h : (xs.map g).Nodup) (hx : x ∈ xs) (hg : g x = a) :
    xs.eraseP (g · = a) = xs.filter (· ≠ x) := by
  rw [eraseP_eq_filter h]
  refine filter_congr fun y hy ↦
    decide_eq_decide.mpr (not_congr ⟨fun hya ↦ ?_, fun hyx ↦ hyx ▸ hg⟩)
  exact inj_on_of_nodup_map h hy hx (hya.trans hg.symm)

end ZenohPico.Foundations
