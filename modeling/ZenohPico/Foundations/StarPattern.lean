import Mathlib.Data.List.Chain

/-!
Patterns over an alphabet of letters with a star. A pattern is a list whose entries are letters
(`some a`) and stars (`none`); it is read against words over a second alphabet. A letter stands for
one symbol it is related to, a star for any run of *plain* symbols. Two questions are asked of a
pair of patterns: do they have a word in common (`Overlap`), and does the first accept every word
of the second (`Covers`).

The lemmas say how the answer changes when a letter is taken off either end of both patterns, when
a star meets the end of the other pattern, and when both patterns are cut at a letter that stands
for symbols no star may take.
-/

open List

namespace ZenohPico.Foundations

variable {α β : Type*}

/-! ### Words of a pattern -/

/-- The words a pattern accepts, given which symbols a letter stands for and which symbols a star
may take. -/
inductive Matches (M : α → β → Prop) (plain : β → Prop) : List (Option α) → List β → Prop
  | nil : Matches M plain [] []
  | letter {a : α} {x : β} {p : List (Option α)} {w : List β} (hx : M a x)
      (hw : Matches M plain p w) : Matches M plain (some a :: p) (x :: w)
  | star {u : List β} {p : List (Option α)} {w : List β} (hu : ∀ x ∈ u, plain x)
      (hw : Matches M plain p w) : Matches M plain (none :: p) (u ++ w)

variable {w : List β} {a b : α} {p q q₁ q₂ p₁ p₂ : List (Option α)}

section Words

variable {M : α → β → Prop} {plain : β → Prop}

theorem matches_nil_iff : Matches M plain [] w ↔ w = [] := by
  constructor
  · intro h
    cases h
    rfl
  · rintro rfl
    exact .nil

theorem matches_letter_iff :
    Matches M plain (some a :: p) w ↔ ∃ x v, w = x :: v ∧ M a x ∧ Matches M plain p v := by
  constructor
  · intro h
    cases h with
    | letter hx hw => exact ⟨_, _, rfl, hx, hw⟩
  · rintro ⟨x, v, rfl, hx, hv⟩
    exact .letter hx hv

theorem matches_star_iff : Matches M plain (none :: p) w ↔
      ∃ u v, w = u ++ v ∧ (∀ x ∈ u, plain x) ∧ Matches M plain p v := by
  constructor
  · intro h
    cases h with
    | star hu hw => exact ⟨_, _, rfl, hu, hw⟩
  · rintro ⟨u, v, rfl, hu, hv⟩
    exact .star hu hv

theorem matches_append_iff : Matches M plain (p ++ q) w ↔
      ∃ u v, w = u ++ v ∧ Matches M plain p u ∧ Matches M plain q v := by
  induction p generalizing w with
  | nil =>
    constructor
    · intro h
      exact ⟨[], w, rfl, .nil, h⟩
    · rintro ⟨u, v, rfl, hu, hv⟩
      rw [matches_nil_iff] at hu
      subst hu
      exact hv
  | cons a p ih =>
    cases a with
    | none =>
      rw [cons_append, matches_star_iff]
      constructor
      · rintro ⟨u, v, rfl, hu, hv⟩
        obtain ⟨v₁, v₂, rfl, hv₁, hv₂⟩ := ih.mp hv
        exact ⟨u ++ v₁, v₂, (append_assoc u v₁ v₂).symm, .star hu hv₁, hv₂⟩
      · rintro ⟨u, v, rfl, hu, hv⟩
        obtain ⟨u₁, u₂, rfl, hu₁, hu₂⟩ := matches_star_iff.mp hu
        exact ⟨u₁, u₂ ++ v, append_assoc u₁ u₂ v, hu₁, ih.mpr ⟨u₂, v, rfl, hu₂, hv⟩⟩
    | some a =>
      rw [cons_append, matches_letter_iff]
      constructor
      · rintro ⟨x, v, rfl, hx, hv⟩
        obtain ⟨v₁, v₂, rfl, hv₁, hv₂⟩ := ih.mp hv
        exact ⟨x :: v₁, v₂, rfl, .letter hx hv₁, hv₂⟩
      · rintro ⟨u, v, rfl, hu, hv⟩
        obtain ⟨x, u, rfl, hx, hu⟩ := matches_letter_iff.mp hu
        exact ⟨x, u ++ v, rfl, hx, ih.mpr ⟨u, v, rfl, hu, hv⟩⟩

theorem matches_singleton_letter_iff : Matches M plain [some a] w ↔ ∃ x, w = [x] ∧ M a x := by
  rw [matches_letter_iff]
  constructor
  · rintro ⟨x, v, rfl, hx, hv⟩
    rw [matches_nil_iff] at hv
    exact ⟨x, by rw [hv], hx⟩
  · rintro ⟨x, rfl, hx⟩
    exact ⟨x, [], rfl, hx, .nil⟩

theorem matches_singleton_star_iff : Matches M plain [none] w ↔ ∀ x ∈ w, plain x := by
  rw [matches_star_iff]
  constructor
  · rintro ⟨u, v, rfl, hu, hv⟩
    rw [matches_nil_iff] at hv
    subst hv
    simpa using hu
  · intro hw
    exact ⟨w, [], by simp, hw, .nil⟩

theorem Matches.reverse (h : Matches M plain p w) : Matches M plain p.reverse w.reverse := by
  induction h with
  | nil => exact .nil
  | letter hx _ ih =>
    rw [reverse_cons, reverse_cons, matches_append_iff]
    exact ⟨_, _, rfl, ih, matches_singleton_letter_iff.mpr ⟨_, rfl, hx⟩⟩
  | star hu _ ih =>
    rw [reverse_cons, reverse_append, matches_append_iff]
    exact ⟨_, _, rfl, ih, matches_singleton_star_iff.mpr (by simpa using hu)⟩

theorem matches_reverse_iff : Matches M plain p.reverse w.reverse ↔ Matches M plain p w := by
  constructor
  · intro h
    simpa using h.reverse
  · exact Matches.reverse

/-- The symbols of the word are all that a star has to be able to take. -/
theorem Matches.mono {plain' : β → Prop} (h : Matches M plain p w) {M' : α → β → Prop}
    (hM : ∀ a x, x ∈ w → M a x → M' a x) (hplain : ∀ x ∈ w, plain x → plain' x) :
    Matches M' plain' p w := by
  induction h with
  | nil => exact .nil
  | letter hx _ ih =>
    refine .letter (hM _ _ (by simp) hx) (ih ?_ ?_)
    · exact fun a x hx ↦ hM a x (mem_cons_of_mem _ hx)
    · exact fun x hx ↦ hplain x (mem_cons_of_mem _ hx)
  | star hu _ ih =>
    refine .star (fun x hx ↦ hplain x (mem_append_left _ hx) (hu x hx)) (ih ?_ ?_)
    · exact fun a x hx ↦ hM a x (mem_append_right _ hx)
    · exact fun x hx ↦ hplain x (mem_append_right _ hx)

end Words

/-! ### Letters -/

section Letters

variable (M : α → β → Prop) (plain : β → Prop)

/-- Every letter of the pattern stands for plain symbols only. -/
def PlainLetters (p : List (Option α)) : Prop :=
  ∀ a, some a ∈ p → ∀ x, M a x → plain x

/-- Every letter of the pattern stands for some symbol. -/
def LiveLetters (p : List (Option α)) : Prop :=
  ∀ a, some a ∈ p → ∃ x, M a x

/-- No two stars stand next to each other. -/
def Reduced (p : List (Option α)) : Prop :=
  p.IsChain fun a b ↦ a ≠ none ∨ b ≠ none

variable {M plain}

theorem PlainLetters.of_subset (hq : PlainLetters M plain q) (h : p ⊆ q) : PlainLetters M plain p :=
  fun a ha ↦ hq a (h ha)

theorem LiveLetters.of_subset (hq : LiveLetters M q) (h : p ⊆ q) : LiveLetters M p :=
  fun a ha ↦ hq a (h ha)

/-- A pattern of plain letters accepts words of plain symbols only. -/
theorem Matches.forall_plain (h : Matches M plain p w) (hp : PlainLetters M plain p) :
    ∀ x ∈ w, plain x := by
  induction h with
  | nil => simp
  | letter hx _ ih =>
    intro y hy
    rcases mem_cons.mp hy with rfl | hy
    · exact hp _ (by simp) _ hx
    · exact ih (hp.of_subset (subset_cons_self _ _)) y hy
  | star hu _ ih =>
    intro y hy
    rcases mem_append.mp hy with hy | hy
    · exact hu y hy
    · exact ih (hp.of_subset (subset_cons_self _ _)) y hy

theorem exists_matches (plain : β → Prop) (hp : LiveLetters M p) : ∃ w, Matches M plain p w := by
  induction p with
  | nil => exact ⟨[], .nil⟩
  | cons a p ih =>
    obtain ⟨w, hw⟩ := ih (hp.of_subset (subset_cons_self _ _))
    cases a with
    | none => exact ⟨[] ++ w, .star (by simp) hw⟩
    | some a =>
      obtain ⟨x, hx⟩ := hp a (by simp)
      exact ⟨x :: w, .letter hx hw⟩

end Letters

/-! ### Patterns with a word in common -/

/-- The two patterns accept a common word. -/
def Overlap (M : α → β → Prop) (plain : β → Prop) (p q : List (Option α)) : Prop :=
  ∃ w, Matches M plain p w ∧ Matches M plain q w

/-- The two letters stand for a common symbol. -/
def LettersMeet (M : α → β → Prop) (a b : α) : Prop :=
  ∃ x, M a x ∧ M b x

section Overlap

variable {M : α → β → Prop} {plain : β → Prop}

theorem overlap_comm : Overlap M plain p q ↔ Overlap M plain q p := by
  constructor <;>
  · rintro ⟨w, h₁, h₂⟩
    exact ⟨w, h₂, h₁⟩

theorem overlap_reverse_iff : Overlap M plain p.reverse q.reverse ↔ Overlap M plain p q := by
  constructor
  · rintro ⟨w, hp, hq⟩
    exact ⟨w.reverse, by simpa using hp.reverse, by simpa using hq.reverse⟩
  · rintro ⟨w, hp, hq⟩
    exact ⟨w.reverse, hp.reverse, hq.reverse⟩

theorem overlap_letter_letter_iff : Overlap M plain (some a :: p) (some b :: q) ↔
      LettersMeet M a b ∧ Overlap M plain p q := by
  constructor
  · rintro ⟨w, hp, hq⟩
    obtain ⟨x, v, rfl, hx, hv⟩ := matches_letter_iff.mp hp
    obtain ⟨y, u, heq, hy, hu⟩ := matches_letter_iff.mp hq
    obtain ⟨rfl, rfl⟩ := List.cons.inj heq
    exact ⟨⟨x, hx, hy⟩, v, hv, hu⟩
  · rintro ⟨⟨x, hx, hy⟩, w, hp, hq⟩
    exact ⟨x :: w, .letter hx hp, .letter hy hq⟩

theorem overlap_concat_letter_letter_iff : Overlap M plain (p ++ [some a]) (q ++ [some b]) ↔
      LettersMeet M a b ∧ Overlap M plain p q := by
  rw [← overlap_reverse_iff, reverse_concat, reverse_concat,
    overlap_letter_letter_iff, overlap_reverse_iff]

theorem not_overlap_letter_nil : ¬ Overlap M plain (some a :: p) [] := by
  rintro ⟨w, hp, hq⟩
  rw [matches_nil_iff] at hq
  subst hq
  obtain ⟨x, v, heq, -⟩ := matches_letter_iff.mp hp
  exact absurd heq (by simp)

theorem overlap_star_nil_iff : Overlap M plain (none :: p) [] ↔ Overlap M plain p [] := by
  constructor
  · rintro ⟨w, hp, hq⟩
    rw [matches_nil_iff] at hq
    subst hq
    obtain ⟨u, v, heq, -, hv⟩ := matches_star_iff.mp hp
    obtain ⟨rfl, rfl⟩ := append_eq_nil_iff.mp heq.symm
    exact ⟨[], hv, .nil⟩
  · rintro ⟨w, hp, hq⟩
    exact ⟨[] ++ w, .star (by simp) hp, hq⟩

theorem overlap_nil_nil : Overlap M plain ([] : List (Option α)) [] :=
  ⟨[], .nil, .nil⟩

/-- A reduced pattern accepts the empty word only when it is empty or a single star. -/
theorem overlap_nil_iff (hp : Reduced p) : Overlap M plain p [] ↔ p = [] ∨ p = [none] := by
  match p, hp with
  | [], _ => simpa using overlap_nil_nil
  | some a :: p, _ => simpa using not_overlap_letter_nil
  | [none], _ => simpa using overlap_star_nil_iff.mpr overlap_nil_nil
  | none :: none :: p, hp => exact absurd hp (by simp [Reduced])
  | none :: some a :: p, _ =>
    rw [overlap_star_nil_iff]
    simpa using not_overlap_letter_nil

/-- A leading star takes a whole pattern of plain letters in front of what the rest overlaps. -/
theorem overlap_star_append (hplain : PlainLetters M plain q₁) (hlive : LiveLetters M q₁)
    (h : Overlap M plain p q₂) : Overlap M plain (none :: p) (q₁ ++ q₂) := by
  obtain ⟨u, hu⟩ := exists_matches plain hlive
  obtain ⟨w, hp, hq⟩ := h
  exact ⟨u ++ w, .star (hu.forall_plain hplain) hp,
    matches_append_iff.mpr ⟨u, w, rfl, hu, hq⟩⟩

theorem overlap_star_of_plain (hplain : PlainLetters M plain q) (hlive : LiveLetters M q) :
    Overlap M plain [none] q := by
  have hnil : Overlap M plain ([] : List (Option α)) [] := overlap_nil_nil
  have h := overlap_star_append hplain hlive hnil
  simpa using h

/-- A star at the front of one pattern and a star at the end of the other let each pattern's
letters go under the other's star. -/
theorem overlap_star_front_back (hpp : PlainLetters M plain p) (hpl : LiveLetters M p)
    (hqp : PlainLetters M plain q) (hql : LiveLetters M q) :
    Overlap M plain (none :: p) (q ++ [none]) := by
  refine overlap_star_append hqp hql ?_
  rw [overlap_comm]
  exact overlap_star_of_plain hpp hpl

/-- Stars at both ends of one pattern and a star anywhere in the other. -/
theorem overlap_star_both_ends (hpp : PlainLetters M plain p) (hpl : LiveLetters M p)
    (hqp : PlainLetters M plain (q₁ ++ none :: q₂)) (hql : LiveLetters M (q₁ ++ none :: q₂)) :
    Overlap M plain (none :: (p ++ [none])) (q₁ ++ none :: q₂) := by
  have h₁ : q₁ ⊆ q₁ ++ none :: q₂ := subset_append_left _ _
  have h₂ : q₂ ⊆ q₁ ++ none :: q₂ :=
    List.Subset.trans (subset_cons_self _ _) (subset_append_right _ _)
  refine overlap_star_append (hqp.of_subset h₁) (hql.of_subset h₁) ?_
  rw [overlap_comm]
  refine overlap_star_append hpp hpl ?_
  rw [overlap_comm]
  exact overlap_star_of_plain (hqp.of_subset h₂) (hql.of_subset h₂)

/-! ### Cutting at a letter no star may take -/

/-- In a pattern cut at the first letter standing for non-plain symbols, the word is cut at its
first non-plain symbol. -/
theorem matches_cut_iff {v : α} (hp : PlainLetters M plain p₁) (hv : ∀ x, M v x → ¬ plain x) :
    Matches M plain (p₁ ++ some v :: p₂) w ↔
      ∃ w₁ x w₂, w = w₁ ++ x :: w₂ ∧ (∀ y ∈ w₁, plain y) ∧ ¬ plain x ∧ M v x ∧
        Matches M plain p₁ w₁ ∧ Matches M plain p₂ w₂ := by
  rw [matches_append_iff]
  constructor
  · rintro ⟨w₁, w', rfl, h₁, h'⟩
    obtain ⟨x, w₂, rfl, hx, h₂⟩ := matches_letter_iff.mp h'
    exact ⟨w₁, x, w₂, rfl, h₁.forall_plain hp, hv x hx, hx, h₁, h₂⟩
  · rintro ⟨w₁, x, w₂, rfl, -, -, hx, h₁, h₂⟩
    exact ⟨w₁, x :: w₂, rfl, h₁, .letter hx h₂⟩

/-- The first symbol outside `plain` cuts a list in one way only. -/
theorem cut_unique {u₁ w₁ : List β} {x y : β} {u₂ w₂ : List β} (hu : ∀ z ∈ u₁, plain z)
    (hx : ¬ plain x) (hw : ∀ z ∈ w₁, plain z) (hy : ¬ plain y)
    (h : u₁ ++ x :: u₂ = w₁ ++ y :: w₂) : u₁ = w₁ ∧ x = y ∧ u₂ = w₂ := by
  induction u₁ generalizing w₁ with
  | nil =>
    cases w₁ with
    | nil => simpa using h
    | cons b w₁ =>
      obtain ⟨rfl, -⟩ := List.cons.inj h
      exact absurd (hw x (by simp)) hx
  | cons a u₁ ih =>
    cases w₁ with
    | nil =>
      obtain ⟨rfl, -⟩ := List.cons.inj h
      exact absurd (hu a (by simp)) hy
    | cons b w₁ =>
      obtain ⟨rfl, hrest⟩ := List.cons.inj h
      obtain ⟨rfl, rfl, rfl⟩ := ih (fun z hz ↦ hu z (mem_cons_of_mem _ hz))
        (fun z hz ↦ hw z (mem_cons_of_mem _ hz)) hrest
      exact ⟨rfl, rfl, rfl⟩

theorem overlap_cut_iff {v u : α} (hp : PlainLetters M plain p₁) (hv : ∀ x, M v x → ¬ plain x)
    (hq : PlainLetters M plain q₁) (hu : ∀ x, M u x → ¬ plain x) :
    Overlap M plain (p₁ ++ some v :: p₂) (q₁ ++ some u :: q₂) ↔
      Overlap M plain p₁ q₁ ∧ LettersMeet M v u ∧ Overlap M plain p₂ q₂ := by
  constructor
  · rintro ⟨w, h₁, h₂⟩
    obtain ⟨w₁, x, w₂, rfl, hw₁, hx, hvx, hp₁, hp₂⟩ := (matches_cut_iff hp hv).mp h₁
    obtain ⟨u₁, y, u₂, heq, hu₁, hy, huy, hq₁, hq₂⟩ := (matches_cut_iff hq hu).mp h₂
    obtain ⟨rfl, rfl, rfl⟩ := cut_unique hw₁ hx hu₁ hy heq
    exact ⟨⟨w₁, hp₁, hq₁⟩, ⟨x, hvx, huy⟩, w₂, hp₂, hq₂⟩
  · rintro ⟨⟨w₁, hp₁, hq₁⟩, ⟨x, hvx, hux⟩, w₂, hp₂, hq₂⟩
    exact ⟨w₁ ++ x :: w₂, matches_append_iff.mpr ⟨w₁, x :: w₂, rfl, hp₁, .letter hvx hp₂⟩,
      matches_append_iff.mpr ⟨w₁, x :: w₂, rfl, hq₁, .letter hux hq₂⟩⟩

theorem not_overlap_cut_plain {v : α} (hv : ∀ x, M v x → ¬ plain x) (hq : PlainLetters M plain q) :
    ¬ Overlap M plain (p₁ ++ some v :: p₂) q := by
  rintro ⟨w, h₁, h₂⟩
  obtain ⟨u, w', rfl, -, h'⟩ := matches_append_iff.mp h₁
  obtain ⟨x, w₂, rfl, hx, -⟩ := matches_letter_iff.mp h'
  exact hv x hx (h₂.forall_plain hq x (by simp))

end Overlap

/-! ### Patterns accepting every word of another -/

/-- The first pattern accepts every word of the second. -/
def Covers (M : α → β → Prop) (plain : β → Prop) (p q : List (Option α)) : Prop :=
  ∀ w, Matches M plain q w → Matches M plain p w

/-- The first letter stands for every symbol the second stands for. -/
def LetterCovers (M : α → β → Prop) (a b : α) : Prop :=
  ∀ x, M b x → M a x

section Covers

variable {M : α → β → Prop} {plain : β → Prop}

theorem covers_nil : Covers M plain ([] : List (Option α)) [] :=
  fun _ h ↦ h

theorem covers_append (h₁ : Covers M plain p₁ q₁) (h₂ : Covers M plain p₂ q₂) :
    Covers M plain (p₁ ++ p₂) (q₁ ++ q₂) := by
  intro w hw
  obtain ⟨u, v, rfl, hu, hv⟩ := matches_append_iff.mp hw
  exact matches_append_iff.mpr ⟨u, v, rfl, h₁ u hu, h₂ v hv⟩

theorem covers_reverse_iff : Covers M plain p.reverse q.reverse ↔ Covers M plain p q := by
  constructor
  · intro h w hw
    exact matches_reverse_iff.mp (h w.reverse (matches_reverse_iff.mpr hw))
  · intro h w hw
    have hw' : Matches M plain q w.reverse := by simpa using hw.reverse
    simpa using (h w.reverse hw').reverse

theorem covers_letter (h : LetterCovers M a b) : Covers M plain [some a] [some b] := by
  intro w hw
  obtain ⟨x, rfl, hx⟩ := matches_singleton_letter_iff.mp hw
  exact matches_singleton_letter_iff.mpr ⟨x, rfl, h x hx⟩

theorem covers_letter_cons (h : LetterCovers M a b) (hpq : Covers M plain p q) :
    Covers M plain (some a :: p) (some b :: q) :=
  covers_append (covers_letter h) hpq

theorem covers_letter_concat (h : LetterCovers M a b) (hpq : Covers M plain p q) :
    Covers M plain (p ++ [some a]) (q ++ [some b]) :=
  covers_append hpq (covers_letter h)

theorem covers_star_of_plain (hq : PlainLetters M plain q) : Covers M plain [none] q :=
  fun _ hw ↦ matches_singleton_star_iff.mpr (hw.forall_plain hq)

theorem covers_star_append (hq : PlainLetters M plain q₁) (h : Covers M plain p q₂) :
    Covers M plain (none :: p) (q₁ ++ q₂) :=
  covers_append (covers_star_of_plain hq) h

end Covers

end ZenohPico.Foundations
