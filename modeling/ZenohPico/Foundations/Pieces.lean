import Mathlib.Data.List.Chain
import Mathlib.Data.List.Range

/-!
A list of items, each cut into numbered pieces and laid out one after the other.

The layout is described by its neighbours: a piece is followed by the next piece of its
item, or, when it was the last one, by the first piece of another item.
-/

open List Option

namespace Pieces

variable {α : Type*}

/-- The pieces `(x, 0), …, (x, count x - 1)` of every item, in order. -/
def layout (count : α → ℕ) (xs : List α) : List (α × ℕ) :=
  xs.flatMap fun x ↦ (List.range (count x)).map (Prod.mk x)

/-- `q` may directly follow `p`: it is the next piece of the same item, or `p` ends its item and
`q` begins one. -/
def Follows (count : α → ℕ) (p q : α × ℕ) : Prop :=
  (q.1 = p.1 ∧ q.2 = p.2 + 1) ∨ (q.2 = 0 ∧ p.2 + 1 = count p.1)

variable {count : α → ℕ}

variable {xs : List α} {p : α × ℕ}

theorem mem_layout : p ∈ layout count xs ↔ p.1 ∈ xs ∧ p.2 < count p.1 := by
  unfold layout
  obtain ⟨x, k⟩ := p
  simp only [mem_flatMap, List.mem_map, mem_range, Prod.mk.injEq]
  constructor
  · rintro ⟨y, hy, l, hl, rfl, rfl⟩
    exact ⟨hy, hl⟩
  · rintro ⟨hx, hk⟩
    exact ⟨x, hx, k, hk, rfl, rfl⟩

theorem isChain_pieces (x : α) (n : ℕ) :
    ((List.range n).map (Prod.mk x)).IsChain (Follows count) := by
  rw [isChain_map]
  exact (isChain_range _ n).mpr fun k _ ↦ .inl ⟨rfl, rfl⟩

theorem eq_zero_of_mem_head? {q : α × ℕ} (h : q ∈ (layout count xs).head?) : q.2 = 0 := by
  induction xs with
  | nil => cases h
  | cons x xs ih =>
    rw [layout, flatMap_cons] at h
    cases hcount : count x with
    | zero =>
      rw [hcount, range_zero, map_nil, nil_append] at h
      exact ih h
    | succ n =>
      rw [hcount, range_succ_eq_map, map_cons, cons_append, List.head?_cons, mem_some_iff] at h
      rw [← h]

theorem succ_eq_of_mem_getLast? {x : α} {n : ℕ} {p : α × ℕ}
    (h : p ∈ ((List.range n).map (Prod.mk x)).getLast?) : p.1 = x ∧ p.2 + 1 = n := by
  rw [List.getLast?_map, List.getLast?_range] at h
  split_ifs at h with hn
  · cases h
  · rw [map_some, mem_some_iff] at h
    subst h
    exact ⟨rfl, by dsimp only; omega⟩

/-- Neighbouring pieces of a layout follow each other. -/
theorem isChain_layout (count : α → ℕ) (xs : List α) :
    (layout count xs).IsChain (Follows count) := by
  induction xs with
  | nil => exact isChain_nil
  | cons x xs ih =>
    have hcons : layout count (x :: xs) =
        (List.range (count x)).map (Prod.mk x) ++ layout count xs := flatMap_cons
    rw [hcons, isChain_append]
    refine ⟨isChain_pieces x _, ih, ?_⟩
    intro p hp q hq
    obtain ⟨hitem, hlast⟩ := succ_eq_of_mem_getLast? hp
    exact .inr ⟨eq_zero_of_mem_head? hq, by rw [hitem]; exact hlast⟩

/-- The piece at an index and the one at the next index follow each other. -/
theorem follows_of_getElem? {i : ℕ} {q : α × ℕ} (hp : (layout count xs)[i]? = some p)
    (hq : (layout count xs)[i + 1]? = some q) : Follows count p q := by
  obtain ⟨hi, rfl⟩ := List.getElem?_eq_some_iff.mp hp
  obtain ⟨hj, rfl⟩ := List.getElem?_eq_some_iff.mp hq
  exact isChain_iff_getElem.mp (isChain_layout count xs) i hj

end Pieces
