import Mathlib.Data.List.Nodup
import Mathlib.Logic.Function.Basic

/-!
Lists that are linked through the slots of a pool.

A slot names the next one, or nothing at the end of the list. A list is put together and taken apart
by changing a few of these names, and slots that are not in it may be changed at will.
-/

open List Option

namespace ZenohPico.Foundations

variable {ι : Type*}

/-- The slots of a list, from its head on -/
def Chain (next : ι → Option ι) : Option ι → List ι → Prop
  | head, [] => head = none
  | head, i :: l => head = some i ∧ Chain next (next i) l

section Reading

variable {next next' : ι → Option ι} {head : Option ι} {l x y : List ι} {i : ι}

/-- A slot in the middle of a list without repetitions stands nowhere else. -/
theorem nodup_middle (h : (x ++ i :: y).Nodup) : i ∉ x ++ y ∧ (x ++ y).Nodup :=
  nodup_cons.mp (perm_middle.nodup_iff.mp h)

theorem Chain.head_eq (h : Chain next head l) : head = l.head? := by
  cases l with
  | nil => exact h
  | cons i l => exact h.1

/-- A head and the links have one list. -/
theorem Chain.unique (h : Chain next head l) (h' : Chain next head x) : l = x := by
  induction l generalizing head x with
  | nil =>
    cases x with
    | nil => rfl
    | cons i x => exact nomatch h.symm.trans h'.1
  | cons i l ih =>
    cases x with
    | nil => exact nomatch h.1.symm.trans h'
    | cons j x =>
      obtain rfl := some.inj (h.1.symm.trans h'.1)
      rw [ih h.2 h'.2]

theorem Chain.congr (h : Chain next head l) (heq : ∀ i ∈ l, next' i = next i) :
    Chain next' head l := by
  induction l generalizing head with
  | nil => exact h
  | cons i l ih =>
    refine ⟨h.1, ?_⟩
    rw [heq i mem_cons_self]
    exact ih h.2 fun j hj ↦ heq j (mem_cons_of_mem _ hj)

theorem Chain.rest (h : Chain next head (x ++ i :: y)) : Chain next (next i) y := by
  induction x generalizing head with
  | nil => exact h.2
  | cons a x ih => exact ih h.2

theorem Chain.next_eq (h : Chain next head (x ++ i :: y)) : next i = y.head? := h.rest.head_eq

end Reading

section Changing

variable [DecidableEq ι] {next : ι → Option ι} {head : Option ι} {l x y : List ι} {i p : ι}

theorem Chain.update (h : Chain next head l) (hi : i ∉ l) (value : Option ι) :
    Chain (Function.update next i value) head l :=
  h.congr fun _ hj ↦ Function.update_of_ne (ne_of_mem_of_not_mem hj hi) _ _

/-- A slot that is not in the list is put in front of it. -/
theorem Chain.cons (h : Chain next head l) (hi : i ∉ l) :
    Chain (Function.update next i head) (some i) (i :: l) := by
  refine ⟨rfl, ?_⟩
  rw [Function.update_self]
  exact h.update hi head

/-- What follows a slot is changed for another list. -/
theorem Chain.relink {z : List ι} {value : Option ι} (h : Chain next head (x ++ p :: z))
    (hy : Chain next value y) (hx : p ∉ x) (hp : p ∉ y) :
    Chain (Function.update next p value) head (x ++ p :: y) := by
  induction x generalizing head with
  | nil =>
    refine ⟨h.1, ?_⟩
    rw [Function.update_self]
    exact hy.update hp value
  | cons a x ih =>
    obtain ⟨hne, hx⟩ := not_or.mp (mt mem_cons.mpr hx)
    refine ⟨h.1, ?_⟩
    rw [Function.update_of_ne (Ne.symm hne)]
    exact ih h.2 hx

end Changing

end ZenohPico.Foundations
