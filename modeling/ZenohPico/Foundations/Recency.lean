import Mathlib.Data.Set.Card

/-!
A bounded map that forgets what was used least recently.

The map says when each element was used last. A list of its elements, the one used last first,
stands for it: what is used goes to the front of the list, and what is used least recently is at
its end.
-/

open List

namespace ZenohPico.Foundations

variable {α : Type*}

/-- When each element was used last. The time starts at 1: what is not there has 0. -/
structure RecencyMap (α : Type*) where
  lastUse : α → ℕ
  now : ℕ

namespace RecencyMap

/-- The elements of the map -/
def elements (m : RecencyMap α) : Set α := {a | m.lastUse a ≠ 0}

/-- A map without elements -/
def empty (now : ℕ) : RecencyMap α := ⟨fun _ ↦ 0, now⟩

open Classical in
/-- An element is used. -/
noncomputable def touch (m : RecencyMap α) (a : α) : RecencyMap α :=
  ⟨Function.update m.lastUse a (m.now + 1), m.now + 1⟩

open Classical in
/-- An element leaves the map. -/
noncomputable def forget (m : RecencyMap α) (a : α) : RecencyMap α :=
  ⟨Function.update m.lastUse a 0, m.now⟩

/-- An element that was used least recently -/
def Least (m : RecencyMap α) (a : α) : Prop :=
  a ∈ m.elements ∧ ∀ b ∈ m.elements, m.lastUse a ≤ m.lastUse b

/-- What is asked of a map -/
inductive Request (α : Type*) where
  | insert (a : α)
  | get (key : α)
  | clear

/-- What a map of bounded size does and answers, where `same` says which elements have a key -/
inductive Step (same : α → α → Prop) (capacity : ℕ) (m : RecencyMap α) :
    Request α → Option α → RecencyMap α → Prop
  | insert (a : α) (hroom : m.elements.ncard < capacity) :
      Step same capacity m (.insert a) none (m.touch a)
  | evict (a least : α) (hfull : m.elements.ncard = capacity) (hleast : m.Least least) :
      Step same capacity m (.insert a) none ((m.forget least).touch a)
  | found (key a : α) (hmem : a ∈ m.elements) (hsame : same a key) :
      Step same capacity m (.get key) (some a) (m.touch a)
  | missed (key : α) (hnone : ∀ a ∈ m.elements, ¬ same a key) :
      Step same capacity m (.get key) none m
  | clear : Step same capacity m .clear none (empty m.now)

/-- A list of the elements of a map, the one that was used last first -/
structure Lists (m : RecencyMap α) (l : List α) : Prop where
  mem_iff : ∀ a, a ∈ l ↔ a ∈ m.elements
  recent : l.Pairwise fun a b ↦ m.lastUse b < m.lastUse a
  le_now : ∀ a, m.lastUse a ≤ m.now

variable {m : RecencyMap α} {l l' : List α} {a : α}

@[simp]
theorem lastUse_touch_self (m : RecencyMap α) (a : α) : (m.touch a).lastUse a = m.now + 1 := by
  simp only [touch, Function.update_self]

theorem lastUse_touch_of_ne {b : α} (h : b ≠ a) : (m.touch a).lastUse b = m.lastUse b := by
  classical
  exact Function.update_of_ne h _ _

@[simp]
theorem lastUse_forget_self (m : RecencyMap α) (a : α) : (m.forget a).lastUse a = 0 := by
  simp only [forget, Function.update_self]

theorem lastUse_forget_of_ne {b : α} (h : b ≠ a) : (m.forget a).lastUse b = m.lastUse b := by
  classical
  exact Function.update_of_ne h _ _

theorem lists_empty (now : ℕ) : (empty now : RecencyMap α).Lists [] where
  mem_iff _ := iff_of_false not_mem_nil fun h ↦ h rfl
  recent := .nil
  le_now _ := Nat.zero_le _

namespace Lists

theorem nodup (h : m.Lists l) : l.Nodup :=
  h.recent.imp fun hlt heq ↦ by
    rw [heq] at hlt
    exact Nat.lt_irrefl _ hlt

theorem ncard_elements (h : m.Lists l) : m.elements.ncard = l.length := by
  classical
  have hset : m.elements = (l.toFinset : Set α) := by
    ext a
    rw [coe_toFinset, Set.mem_ofPred_eq, h.mem_iff a]
  rw [hset, Set.ncard_coe_finset, toFinset_card_of_nodup h.nodup]

/-- An element that is used goes to the front. -/
theorem touch (h : m.Lists l) (hsub : l'.Sublist l) (hmem : ∀ b, b ∈ l' ↔ b ∈ l ∧ b ≠ a) :
    (m.touch a).Lists (a :: l') := by
  refine ⟨fun b ↦ ?_, pairwise_cons.mpr ⟨fun b hb ↦ ?_, ?_⟩, fun b ↦ ?_⟩
  · by_cases hb : b = a
    · subst hb
      refine iff_of_true mem_cons_self ?_
      change (m.touch b).lastUse b ≠ 0
      rw [lastUse_touch_self]
      exact Nat.succ_ne_zero _
    · rw [mem_cons, or_iff_right hb, hmem, and_iff_left hb, h.mem_iff]
      change m.lastUse b ≠ 0 ↔ (m.touch a).lastUse b ≠ 0
      rw [lastUse_touch_of_ne hb]
  · rw [lastUse_touch_self, lastUse_touch_of_ne ((hmem b).mp hb).2]
    exact Nat.lt_succ_of_le (h.le_now b)
  · refine (h.recent.sublist hsub).imp_of_mem fun hb hc hlt ↦ ?_
    rwa [lastUse_touch_of_ne ((hmem _).mp hb).2, lastUse_touch_of_ne ((hmem _).mp hc).2]
  · by_cases hb : b = a
    · subst hb
      exact (lastUse_touch_self m b).le
    · rw [lastUse_touch_of_ne hb]
      exact (h.le_now b).trans (Nat.le_succ _)

/-- The last element of the list was used least recently. -/
theorem least (h : m.Lists (l ++ [a])) : m.Least a := by
  refine ⟨(h.mem_iff a).mp mem_concat_self, fun b hb ↦ ?_⟩
  rcases mem_append.mp ((h.mem_iff b).mpr hb) with hl | hlast
  · exact (pairwise_append.mp h.recent).2.2 b hl a mem_cons_self |>.le
  · rw [mem_singleton.mp hlast]

/-- The last element of the list leaves. -/
theorem forget (h : m.Lists (l ++ [a])) : (m.forget a).Lists l := by
  have hne : ∀ b ∈ l, b ≠ a := by
    rintro b hb rfl
    exact disjoint_of_nodup_append h.nodup hb mem_cons_self
  refine ⟨fun b ↦ ?_, ?_, fun b ↦ ?_⟩
  · by_cases hb : b = a
    · subst hb
      exact iff_of_false (fun hl ↦ hne b hl rfl) fun helem ↦ helem (lastUse_forget_self m b)
    · have hl : b ∈ l ↔ b ∈ l ++ [a] := by
        rw [mem_append, mem_singleton, or_iff_left hb]
      rw [hl, h.mem_iff]
      change m.lastUse b ≠ 0 ↔ (m.forget a).lastUse b ≠ 0
      rw [lastUse_forget_of_ne hb]
  · refine (pairwise_append.mp h.recent).1.imp_of_mem fun hb hc hlt ↦ ?_
    rwa [lastUse_forget_of_ne (hne _ hb), lastUse_forget_of_ne (hne _ hc)]
  · by_cases hb : b = a
    · subst hb
      rw [lastUse_forget_self]
      exact Nat.zero_le _
    · rw [lastUse_forget_of_ne hb]
      exact h.le_now b

/-- A new element in front -/
theorem touch_new (h : m.Lists l) (ha : a ∉ l) : (m.touch a).Lists (a :: l) := by
  refine h.touch (.refl l) fun b ↦ (and_iff_left_of_imp ?_).symm
  rintro hb rfl
  exact ha hb

end Lists

end RecencyMap

end ZenohPico.Foundations
