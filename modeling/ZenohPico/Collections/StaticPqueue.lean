import ZenohPico.Foundations.BinaryHeap
import Mathlib.Data.Multiset.AddSub
import Mathlib.Order.Antisymmetrization

/-!
The fixed-size priority queue (`include/zenoh-pico/collections/static_pqueue_template.h`).

The template is instantiated with a comparison that returns a number below, at or above zero. A
comparison that orders the elements totally, though it may hold several of them for equal, is the
order of some key; so the sifts are those of a heap with keys that do not change.
-/

open List

namespace ZenohPico.Collections

open Foundations

/-- `_ZP_STATIC_PQUEUE_TEMPLATE_ELEM_CMP_FN` where it orders the elements totally -/
structure Comparison (α : Type) where
  cmp : α → α → ℤ
  neg_iff : ∀ a b, cmp a b < 0 ↔ 0 < cmp b a
  trans : ∀ a b c, cmp a b ≤ 0 → cmp b c ≤ 0 → cmp a c ≤ 0

section Sifts

variable {α : Type} (cmp : α → α → ℤ)

/-! ### The loops of the source -/

/-- The comparison of two places, one of which may lie behind the last element -/
def comesBefore (h : List α) (i j : ℕ) : Bool :=
  match h[i]?, h[j]? with
  | some a, some b => cmp a b < 0
  | _, _ => false

theorem lt_length_of_comesBefore {h : List α} {i j : ℕ} (hbefore : comesBefore cmp h i j = true) :
    i < h.length := by
  by_contra hlen
  rw [comesBefore, List.getElem?_eq_none (Nat.le_of_not_lt hlen)] at hbefore
  exact Bool.false_ne_true hbefore

/-- `_sift_up` -/
def pqueueSiftUp (h : List α) (i : ℕ) : List α :=
  if 0 < i ∧ comesBefore cmp h i ((i - 1) / 2) then
    pqueueSiftUp (h.swap i ((i - 1) / 2)) ((i - 1) / 2)
  else h
termination_by i
decreasing_by omega

/-- `best` in the loop of `_sift_down` -/
def pqueueBest (h : List α) (i : ℕ) : ℕ :=
  let left := 2 * i + 1
  let right := 2 * i + 2
  let best := if left < h.length ∧ comesBefore cmp h left i then left else i
  if right < h.length ∧ comesBefore cmp h right best then right else best

theorem pqueueBest_cases (h : List α) (i : ℕ) :
    pqueueBest cmp h i = i ∨ (i < pqueueBest cmp h i ∧ pqueueBest cmp h i < h.length) := by
  rw [pqueueBest]
  by_cases hleft : 2 * i + 1 < h.length ∧ comesBefore cmp h (2 * i + 1) i = true
  · rw [if_pos hleft]
    split
    · next hright => exact .inr ⟨by omega, hright.1⟩
    · exact .inr ⟨by omega, hleft.1⟩
  · rw [if_neg hleft]
    split
    · next hright => exact .inr ⟨by omega, hright.1⟩
    · exact .inl rfl

/-- `_sift_down` -/
def pqueueSiftDown (h : List α) (i : ℕ) : List α :=
  if _hbest : pqueueBest cmp h i = i then h
  else pqueueSiftDown (h.swap i (pqueueBest cmp h i)) (pqueueBest cmp h i)
termination_by h.length - i
decreasing_by
  obtain heq | ⟨hlt, hlen⟩ := pqueueBest_cases cmp h i
  · exact absurd heq _hbest
  · rw [length_swap]
    omega

/-! ### The same loops with a key -/

section Key

variable {cmp} {κ : Type} [LinearOrder κ] {key : α → κ}
variable (hkey : ∀ a b, cmp a b < 0 ↔ key a < key b)

include hkey

theorem comesBefore_eq (h : List α) (i j : ℕ) : comesBefore cmp h i j = before key h i j := by
  rw [comesBefore, before]
  cases h[i]? with
  | none => rfl
  | some a =>
    cases h[j]? with
    | none => rfl
    | some b => exact decide_eq_decide.mpr (hkey a b)

theorem pqueueSiftUp_eq (h : List α) (i : ℕ) : pqueueSiftUp cmp h i = siftUp key h i := by
  induction h, i using pqueueSiftUp.induct cmp with
  | case1 h i hup ih =>
    rw [pqueueSiftUp, siftUp, if_pos hup, ih, if_pos ⟨hup.1, comesBefore_eq hkey h .. ▸ hup.2⟩]
  | case2 h i hup =>
    rw [pqueueSiftUp, siftUp, if_neg hup, if_neg]
    rwa [comesBefore_eq hkey] at hup

theorem pqueueBest_eq (h : List α) (i : ℕ) : pqueueBest cmp h i = bestOf key h i := by
  have hplace {j k : ℕ} : (j < h.length ∧ comesBefore cmp h j k = true) ↔
      before key h j k = true := by
    rw [← comesBefore_eq hkey]
    exact ⟨fun hboth ↦ hboth.2, fun hbefore ↦ ⟨lt_length_of_comesBefore cmp hbefore, hbefore⟩⟩
  rw [pqueueBest, bestOf]
  simp only [hplace]

theorem pqueueSiftDown_eq (h : List α) (i : ℕ) : pqueueSiftDown cmp h i = siftDown key h i := by
  induction h, i using pqueueSiftDown.induct cmp with
  | case1 h i hbest =>
    rw [pqueueSiftDown, siftDown, dif_pos hbest, dif_pos (pqueueBest_eq hkey h i ▸ hbest)]
  | case2 h i hbest ih =>
    rw [pqueueSiftDown, siftDown, dif_neg hbest, ih, dif_neg (pqueueBest_eq hkey h i ▸ hbest),
      pqueueBest_eq hkey]

end Key

end Sifts

/-- A total comparison is the order of a key. -/
theorem Comparison.exists_key {α : Type} (c : Comparison α) :
    ∃ (κ : Type) (_ : LinearOrder κ) (key : α → κ), ∀ a b, c.cmp a b < 0 ↔ key a < key b := by
  classical
  have hswap (a b : α) : ¬ c.cmp a b ≤ 0 ↔ c.cmp b a < 0 := by
    rw [c.neg_iff b a, not_le]
  let order : Preorder α :=
    { le := fun a b ↦ c.cmp a b ≤ 0
      lt := fun a b ↦ c.cmp a b < 0
      le_refl := fun a ↦ by
        by_contra h
        exact h ((hswap a a).mp h).le
      le_trans := c.trans
      lt_iff_le_not_ge := fun a b ↦ by
        rw [hswap]
        exact ⟨fun h ↦ ⟨h.le, h⟩, fun h ↦ h.2⟩ }
  have htotal : ∀ a b : α, a ≤ b ∨ b ≤ a := fun a b ↦ by
    by_cases h : c.cmp a b ≤ 0
    · exact .inl h
    · exact .inr ((hswap a b).mp h).le
  have : @Std.Total α (· ≤ ·) := ⟨htotal⟩
  exact ⟨Antisymmetrization α (· ≤ ·), inferInstance, toAntisymmetrization (· ≤ ·),
    fun a b ↦ toAntisymmetrization_lt_toAntisymmetrization_iff.symm⟩

/-! ### The queue -/

/-- The generated queue: the elements at the front of its buffer -/
structure StaticPqueue (α : Type) (capacity : ℕ) where
  buffer : List α
  size_le : buffer.length ≤ capacity

namespace StaticPqueue

variable {α : Type} {capacity : ℕ} (cmp : α → α → ℤ)

/-- `_new` -/
def new (α : Type) (capacity : ℕ) : StaticPqueue α capacity := ⟨[], Nat.zero_le capacity⟩

/-- `_peek` -/
def peek (pqueue : StaticPqueue α capacity) : Option α := pqueue.buffer.head?

theorem length_pqueueSiftUp (h : List α) (i : ℕ) : (pqueueSiftUp cmp h i).length = h.length := by
  induction h, i using pqueueSiftUp.induct cmp with
  | case1 h i hup ih => rw [pqueueSiftUp, if_pos hup, ih, length_swap]
  | case2 h i hup => rw [pqueueSiftUp, if_neg hup]

theorem length_pqueueSiftDown (h : List α) (i : ℕ) :
    (pqueueSiftDown cmp h i).length = h.length := by
  induction h, i using pqueueSiftDown.induct cmp with
  | case1 h i hbest => rw [pqueueSiftDown, dif_pos hbest]
  | case2 h i hbest ih => rw [pqueueSiftDown, dif_neg hbest, ih, length_swap]

/-- `_push` -/
def push (pqueue : StaticPqueue α capacity) (elem : α) : StaticPqueue α capacity × Bool :=
  if hfull : pqueue.buffer.length = capacity then (pqueue, false)
  else
    (⟨pqueueSiftUp cmp (pqueue.buffer ++ [elem]) pqueue.buffer.length, by
      have := pqueue.size_le
      rw [length_pqueueSiftUp, length_append, length_singleton]
      omega⟩, true)

/-- The elements that `_pop` leaves: the last one goes to the root, if it is not the root itself. -/
def popRest : List α → List α
  | [] => []
  | _ :: rest =>
    match rest.getLast? with
    | none => []
    | some last => pqueueSiftDown cmp (last :: rest.dropLast) 0

theorem length_popRest_le (h : List α) : (popRest cmp h).length ≤ h.length := by
  cases h with
  | nil => exact Nat.le_refl 0
  | cons root rest =>
    rw [popRest]
    split
    · exact Nat.zero_le _
    · rw [length_pqueueSiftDown, length_cons, length_dropLast, length_cons]
      omega

/-- `_pop` -/
def pop (pqueue : StaticPqueue α capacity) : StaticPqueue α capacity × Option α :=
  (⟨popRest cmp pqueue.buffer, (length_popRest_le cmp _).trans pqueue.size_le⟩, pqueue.buffer.head?)

/-! ### Calls -/

/-- A call of the queue -/
inductive Op (α : Type)
  | push (elem : α)
  | peek
  | pop

/-- What a call returns -/
inductive Out (α : Type)
  | pushed (ok : Bool)
  | seen (elem : Option α)
  | popped (elem : Option α)

/-- One call -/
def step (pqueue : StaticPqueue α capacity) : Op α → StaticPqueue α capacity × Out α
  | .push elem => ((pqueue.push cmp elem).1, .pushed (pqueue.push cmp elem).2)
  | .peek => (pqueue, .seen pqueue.peek)
  | .pop => ((pqueue.pop cmp).1, .popped (pqueue.pop cmp).2)

/-- The queue behind a sequence of calls -/
def run (pqueue : StaticPqueue α capacity) (ops : List (Op α)) : StaticPqueue α capacity :=
  ops.foldl (fun pqueue op ↦ (pqueue.step cmp op).1) pqueue

end StaticPqueue

/-! ### The bag behind the queue -/

/-- One call of a bag of at most `capacity` elements: it takes an element unless it is full, and
shows and gives an element that none comes before. -/
inductive BagStep {α : Type} (c : Comparison α) (capacity : ℕ) :
    Multiset α → StaticPqueue.Op α → StaticPqueue.Out α → Multiset α → Prop
  | pushFull {s : Multiset α} {a : α} (h : s.card = capacity) :
    BagStep c capacity s (.push a) (.pushed false) s
  | push {s : Multiset α} {a : α} (h : s.card < capacity) :
    BagStep c capacity s (.push a) (.pushed true) (a ::ₘ s)
  | peekEmpty : BagStep c capacity 0 .peek (.seen none) 0
  | peek {s : Multiset α} {a : α} (hmem : a ∈ s) (hleast : ∀ b ∈ s, c.cmp a b ≤ 0) :
    BagStep c capacity s .peek (.seen (some a)) s
  | popEmpty : BagStep c capacity 0 .pop (.popped none) 0
  | pop {s : Multiset α} {a : α} (hleast : ∀ b ∈ a ::ₘ s, c.cmp a b ≤ 0) :
    BagStep c capacity (a ::ₘ s) .pop (.popped (some a)) s

namespace StaticPqueue

variable {α : Type} {capacity : ℕ} {c : Comparison α} {pqueue : StaticPqueue α capacity}

/-- No element comes before its parent in the heap. -/
def Ordered (c : Comparison α) (pqueue : StaticPqueue α capacity) : Prop :=
  ∀ k, 0 < k → ∀ a b, pqueue.buffer[k]? = some a → pqueue.buffer[(k - 1) / 2]? = some b →
    c.cmp b a ≤ 0

theorem cmp_le_iff {κ : Type} [LinearOrder κ] {key : α → κ}
    (hkey : ∀ a b, c.cmp a b < 0 ↔ key a < key b) (a b : α) : c.cmp a b ≤ 0 ↔ key a ≤ key b := by
  rw [← not_lt, ← c.neg_iff, hkey, not_lt]

theorem ordered_iff {κ : Type} [LinearOrder κ] {key : α → κ}
    (hkey : ∀ a b, c.cmp a b < 0 ↔ key a < key b) :
    Ordered c pqueue ↔ HeapOrdered key pqueue.buffer := by
  simp only [Ordered, HeapOrdered, cmp_le_iff hkey]

theorem popRest_eq {κ : Type} [LinearOrder κ] {key : α → κ}
    (hkey : ∀ a b, c.cmp a b < 0 ↔ key a < key b) {h : List α} {root : α}
    (hroot : h.head? = some root) : heapPop key h = some (root, popRest c.cmp h) := by
  cases h with
  | nil => cases hroot
  | cons a rest =>
    obtain rfl := Option.some.inj hroot
    rw [heapPop, popRest]
    cases rest.getLast? with
    | none => rfl
    | some last => exact congrArg (fun r ↦ some (a, r)) (pqueueSiftDown_eq hkey _ 0).symm

theorem Ordered.root_le (hord : Ordered c pqueue) {root a : α}
    (hroot : pqueue.buffer.head? = some root) (ha : a ∈ pqueue.buffer) : c.cmp root a ≤ 0 := by
  obtain ⟨κ, order, key, hkey⟩ := c.exists_key
  exact (cmp_le_iff hkey root a).mpr (((ordered_iff hkey).mp hord).root_le hroot ha)

/-- A call keeps the heap in order. -/
theorem Ordered.step (hord : Ordered c pqueue) (op : Op α) :
    Ordered c (pqueue.step c.cmp op).1 := by
  obtain ⟨κ, order, key, hkey⟩ := c.exists_key
  cases op with
  | push elem =>
    rw [StaticPqueue.step, push]
    split
    · exact hord
    · rw [ordered_iff hkey] at hord ⊢
      dsimp only
      rw [pqueueSiftUp_eq hkey]
      exact hord.push elem
  | peek => exact hord
  | pop =>
    rw [ordered_iff hkey] at hord ⊢
    cases hroot : pqueue.buffer.head? with
    | none =>
      have hempty : popRest c.cmp pqueue.buffer = [] := by
        rw [List.head?_eq_none_iff.mp hroot, popRest]
      change HeapOrdered key (popRest c.cmp pqueue.buffer)
      rw [hempty]
      exact fun k _ a b ha ↦ by cases ha
    | some root => exact hord.pop (popRest_eq hkey hroot)

/-- A call does to the elements what it does to a bag. -/
theorem Ordered.bagStep (hord : Ordered c pqueue) (op : Op α) :
    BagStep c capacity pqueue.buffer op (pqueue.step c.cmp op).2
      (pqueue.step c.cmp op).1.buffer := by
  obtain ⟨κ, order, key, hkey⟩ := c.exists_key
  cases op with
  | push elem =>
    rw [StaticPqueue.step, push]
    split
    · next hfull => exact .pushFull hfull
    · next hfull =>
      have hbag : (pqueueSiftUp c.cmp (pqueue.buffer ++ [elem]) pqueue.buffer.length : Multiset α) =
          elem ::ₘ (pqueue.buffer : Multiset α) := by
        rw [pqueueSiftUp_eq hkey]
        exact Multiset.coe_eq_coe.mpr (heapPush_perm key pqueue.buffer elem)
      dsimp only
      rw [hbag]
      exact .push (Nat.lt_of_le_of_ne pqueue.size_le hfull)
  | peek =>
    rw [StaticPqueue.step, peek]
    cases hroot : pqueue.buffer.head? with
    | none =>
      rw [List.head?_eq_none_iff.mp hroot]
      exact .peekEmpty
    | some root =>
      have hmem : root ∈ pqueue.buffer := mem_of_mem_head? hroot
      exact .peek (Multiset.mem_coe.mpr hmem) fun b hb ↦
        hord.root_le hroot (Multiset.mem_coe.mp hb)
  | pop =>
    rw [StaticPqueue.step, pop]
    dsimp only
    cases hroot : pqueue.buffer.head? with
    | none =>
      rw [List.head?_eq_none_iff.mp hroot]
      exact .popEmpty
    | some root =>
      have hbag : (pqueue.buffer : Multiset α) =
          root ::ₘ (popRest c.cmp pqueue.buffer : Multiset α) :=
        (Multiset.coe_eq_coe.mpr (heapPop_perm (popRest_eq hkey hroot)).2).symm
      have hleast : ∀ b ∈ root ::ₘ (popRest c.cmp pqueue.buffer : Multiset α), c.cmp root b ≤ 0 :=
        fun b hb ↦ hord.root_le hroot (Multiset.mem_coe.mp (hbag ▸ hb))
      have hstep := @BagStep.pop α c capacity _ _ hleast
      rwa [← hbag] at hstep

theorem ordered_run (c : Comparison α) (ops : List (Op α)) :
    Ordered c ((new α capacity).run c.cmp ops) := by
  have hrun : ∀ ops (pqueue : StaticPqueue α capacity), Ordered c pqueue →
      Ordered c (pqueue.run c.cmp ops) := by
    intro ops
    induction ops with
    | nil => exact fun _ hord ↦ hord
    | cons op ops ih => exact fun pqueue hord ↦ ih _ (hord.step op)
  exact hrun ops _ fun k _ a b ha ↦ by cases ha

/-- In every run the heap is in order, and every call does what it does to a bag; what is taken is
the element that was shown. -/
theorem pqueue_refines_bag (c : Comparison α) (ops : List (Op α)) :
    Ordered c ((new α capacity).run c.cmp ops) ∧
      (∀ op, BagStep c capacity ((new α capacity).run c.cmp ops).buffer op
        (((new α capacity).run c.cmp ops).step c.cmp op).2
        (((new α capacity).run c.cmp ops).step c.cmp op).1.buffer) ∧
      (((new α capacity).run c.cmp ops).pop c.cmp).2 = ((new α capacity).run c.cmp ops).peek :=
  ⟨ordered_run c ops, (ordered_run c ops).bagStep, rfl⟩

/-- The difference of two numbers as their comparison -/
def difference : Comparison ℤ where
  cmp a b := a - b
  neg_iff := by omega
  trans := by omega

/-- Four numbers are pushed into a queue for three, which has no room for the last one, and the least
one is taken. -/
theorem pqueue_refines_bag_numbers :
    Ordered difference ((new ℤ 3).run difference.cmp [.push 5, .push 2, .push 9, .push 1, .pop]) ∧
      (((new ℤ 3).run difference.cmp [.push 5, .push 2, .push 9, .push 1, .pop]).pop
        difference.cmp).2 = some 5 := by
  obtain ⟨hordered, -, hpop⟩ := @pqueue_refines_bag ℤ 3 difference
    [.push 5, .push 2, .push 9, .push 1, .pop]
  exact ⟨hordered, hpop.trans (by decide +kernel)⟩

end StaticPqueue

end ZenohPico.Collections
