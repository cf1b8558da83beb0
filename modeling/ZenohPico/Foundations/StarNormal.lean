import ZenohPico.Foundations.StarMatching

/-!
Rewriting patterns without changing the words they stand for: two stars in a row are one star, and
a star and a letter that stands for exactly the plain symbols may change places.
-/

open List

namespace ZenohPico.Foundations

variable {α β : Type*} {M : α → β → Prop} {plain : β → Prop}

/-! ### Stars in a row -/

/-- Drop every star right behind a star. The flag says that a star has just been read. -/
def collapse : Bool → List (Option α) → List (Option α)
  | _, [] => []
  | true, none :: p => collapse true p
  | false, none :: p => none :: collapse true p
  | _, some a :: p => some a :: collapse false p

theorem collapse_some (behind : Bool) (a : α) (p : List (Option α)) :
    collapse behind (some a :: p) = some a :: collapse false p := by
  cases behind <;> rfl

theorem length_collapse_le (behind : Bool) (p : List (Option α)) :
    (collapse behind p).length ≤ p.length := by
  induction p generalizing behind with
  | nil => cases behind <;> simp [collapse]
  | cons a p ih =>
    have htrue := ih true
    have hfalse := ih false
    cases a <;> cases behind <;> simp only [collapse, length_cons] <;> omega

variable {p : List (Option α)}

theorem mem_collapse_some_iff {behind : Bool} {a : α} :
    some a ∈ collapse behind p ↔ some a ∈ p := by
  induction p generalizing behind with
  | nil => cases behind <;> simp [collapse]
  | cons b p ih =>
    cases b with
    | none => cases behind <;> simp [collapse, ih]
    | some b => cases behind <;> simp [collapse, ih]

theorem reduced_collapse (p : List (Option α)) :
    Reduced (collapse false p) ∧ Reduced (none :: collapse true p) := by
  induction p with
  | nil => simp [collapse, Reduced]
  | cons a p ih =>
    cases a with
    | none => exact ⟨ih.2, ih.2⟩
    | some a =>
      have hcons : Reduced (some a :: collapse false p) := by
        simpa [Reduced, isChain_cons] using ih.1
      refine ⟨hcons, ?_⟩
      simpa [collapse, Reduced] using hcons

theorem collapse_eq_self :
    (Reduced p → collapse false p = p) ∧ (Reduced (none :: p) → collapse true p = p) := by
  induction p with
  | nil => simp [collapse]
  | cons a p ih =>
    cases a with
    | none =>
      refine ⟨fun h ↦ ?_, fun h ↦ ?_⟩
      · rw [collapse, ih.2 h]
      · simp [Reduced] at h
    | some a =>
      refine ⟨fun h ↦ ?_, fun h ↦ ?_⟩
      · rw [collapse, ih.1 h.tail]
      · rw [collapse, ih.1 h.tail.tail]

/-- A letter starts the collapsing anew. -/
theorem collapse_append_letter (behind : Bool) (p q : List (Option α)) (a : α) :
    collapse behind (p ++ some a :: q) = collapse behind p ++ some a :: collapse false q := by
  induction p generalizing behind with
  | nil => cases behind <;> rfl
  | cons b p ih =>
    cases b with
    | none => cases behind <;> simp [collapse, ih]
    | some b => cases behind <;> simp [collapse, ih]

theorem matches_star_star_iff {w : List β} :
    Matches M plain (none :: none :: p) w ↔ Matches M plain (none :: p) w := by
  constructor
  · intro h
    obtain ⟨u, v, rfl, hu, hv⟩ := matches_star_iff.mp h
    obtain ⟨u', v', rfl, hu', hv'⟩ := matches_star_iff.mp hv
    rw [← append_assoc]
    refine .star ?_ hv'
    intro x hx
    rcases mem_append.mp hx with hx | hx
    · exact hu x hx
    · exact hu' x hx
  · exact fun h ↦ matches_star_iff.mpr ⟨[], w, rfl, by simp, h⟩

theorem matches_star_congr {q : List (Option α)}
    (h : ∀ w, Matches M plain p w ↔ Matches M plain q w) (w : List β) :
    Matches M plain (none :: p) w ↔ Matches M plain (none :: q) w := by
  rw [matches_star_iff, matches_star_iff]
  simp only [h]

theorem matches_letter_congr {q : List (Option α)} {a b : α} (hab : ∀ x, M a x ↔ M b x)
    (h : ∀ w, Matches M plain p w ↔ Matches M plain q w) (w : List β) :
    Matches M plain (some a :: p) w ↔ Matches M plain (some b :: q) w := by
  rw [matches_letter_iff, matches_letter_iff]
  simp only [h, hab]

theorem matches_collapse_iff (p : List (Option α)) :
    (∀ w, Matches M plain (collapse false p) w ↔ Matches M plain p w) ∧
      ∀ w, Matches M plain (none :: collapse true p) w ↔ Matches M plain (none :: p) w := by
  induction p with
  | nil => simp [collapse]
  | cons a p ih =>
    cases a with
    | none =>
      refine ⟨ih.2, fun w ↦ ?_⟩
      rw [collapse, ih.2, matches_star_star_iff]
    | some a =>
      have hletter := matches_letter_congr (fun x ↦ (Iff.rfl : M a x ↔ M a x)) ih.1
      exact ⟨hletter, matches_star_congr hletter⟩

/-! ### A star and a letter -/

/-- Assumes: the letter stands for exactly the plain symbols. Then it passes a star. -/
theorem matches_star_letter_iff {a : α} (ha : ∀ x, M a x ↔ plain x) {w : List β} :
    Matches M plain (none :: some a :: p) w ↔ Matches M plain (some a :: none :: p) w := by
  constructor
  · intro h
    obtain ⟨u, v, rfl, hu, hv⟩ := matches_star_iff.mp h
    obtain ⟨x, v', rfl, hx, hv'⟩ := matches_letter_iff.mp hv
    cases u with
    | nil => exact .letter hx (.star (u := []) (by simp) hv')
    | cons y u =>
      rw [cons_append, append_cons]
      refine .letter ((ha y).mpr (hu y (by simp))) (.star ?_ hv')
      intro z hz
      rcases mem_append.mp hz with hz | hz
      · exact hu z (mem_cons_of_mem _ hz)
      · rw [mem_singleton.mp hz]
        exact (ha x).mp hx
  · intro h
    obtain ⟨x, v, rfl, hx, hv⟩ := matches_letter_iff.mp h
    obtain ⟨u, v', rfl, hu, hv'⟩ := matches_star_iff.mp hv
    rcases eq_nil_or_concat u with rfl | ⟨u, y, rfl⟩
    · exact .star (u := []) (by simp) (.letter hx hv')
    · rw [concat_eq_append, append_assoc, ← cons_append]
      refine .star ?_ (.letter ((ha y).mpr (hu y (by simp))) hv')
      intro z hz
      rcases mem_cons.mp hz with rfl | hz
      · exact (ha z).mp hx
      · exact hu z (by simp [hz])

end ZenohPico.Foundations
