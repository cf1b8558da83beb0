import ZenohPico.Foundations.SegmentSearch

/-!
Comparing two patterns by taking letters off their ends: off the front of both until one of them
shows a star, then off the back of both until a star shows again. What is done with the middle that
is left is a parameter (`onStar`), and so is what it takes for a leading star to absorb a rest with
no partner (`clean`). The answer is an `Option`: the treatment of the middle need not end.

With `both` set, stars count on either side and the question is whether the patterns overlap;
without it a star of the second pattern only ever faces a star of the first, and the question is
whether the first covers the second.
-/

open List Option

namespace ZenohPico.Foundations

variable {α β : Type*}

/-- The pattern is a single star. -/
def isLoneStar : List (Option α) → Bool
  | [none] => true
  | _ => false

/-- Take letters off the back. The first pattern stands behind a star; both are given reversed. -/
def stripBack (both : Bool) (r : α → α → Bool) (clean : List (Option α) → Bool)
    (onStar : List (Option α) → List (Option α) → Option Bool) :
    List (Option α) → List (Option α) → Option Bool
  | [], q => some (clean q.reverse)
  | _ :: _, [] => some false
  | none :: p, b :: q => onStar (none :: p).reverse (b :: q).reverse
  | some a :: p, none :: q =>
    if both then onStar (some a :: p).reverse (none :: q).reverse else some false
  | some a :: p, some b :: q => if r a b then stripBack both r clean onStar p q else some false

/-- Take letters off the front, then off the back behind the first star met. -/
def stripFront (both : Bool) (front back : α → α → Bool) (clean : List (Option α) → Bool)
    (onStar : List (Option α) → List (Option α) → Option Bool) :
    List (Option α) → List (Option α) → Option Bool
  | [], q => some (q.isEmpty || (both && isLoneStar q))
  | a :: p, [] => some (isLoneStar (a :: p))
  | none :: p, b :: q => stripBack both back clean onStar p.reverse (b :: q).reverse
  | some a :: p, none :: q =>
    if both then stripBack both back clean onStar q.reverse (some a :: p).reverse else some false
  | some a :: p, some b :: q =>
    if front a b then stripFront both front back clean onStar p q else some false

variable {p q : List (Option α)}

theorem isLoneStar_iff : isLoneStar p = true ↔ p = [none] := by
  match p with
  | [] => simp [isLoneStar]
  | [none] => simp [isLoneStar]
  | [some a] => simp [isLoneStar]
  | a :: b :: p => simp [isLoneStar]

/-- The letters of a pattern all satisfy `G`. -/
def AllLetters (G : α → Prop) (p : List (Option α)) : Prop :=
  ∀ a, some a ∈ p → G a

theorem AllLetters.of_subset {G : α → Prop} (hq : AllLetters G q) (h : p ⊆ q) : AllLetters G p :=
  fun a ha ↦ hq a (h ha)

/-- The pattern ends in a star. -/
def EndsInStar (p : List (Option α)) : Prop :=
  ∃ p', p = p' ++ [none]

section Overlap

variable {M : α → β → Prop} {plain : β → Prop} {G : α → Prop}
  {front back : α → α → Bool} {clean : List (Option α) → Bool}
  {onStar : List (Option α) → List (Option α) → Option Bool}

/-- Assumes: the comparison of two good letters decides whether they meet, a leading star absorbs
exactly the clean rests, and the treatment of a middle with a star at its end answers whether it
overlaps, when it answers. -/
structure DecidesOverlap (M : α → β → Prop) (plain : β → Prop) (G : α → Prop)
    (back : α → α → Bool) (clean : List (Option α) → Bool)
    (onStar : List (Option α) → List (Option α) → Option Bool) : Prop where
  back_iff : ∀ a b, G a → G b → (back a b = true ↔ LettersMeet M a b)
  clean_iff : ∀ q, AllLetters G q → Reduced q → (clean q = true ↔ Overlap M plain [none] q)
  onStar_iff : ∀ p q answer, AllLetters G p → AllLetters G q → Reduced (none :: p) → Reduced q →
    p ≠ [] → q ≠ [] → EndsInStar p ∨ EndsInStar q →
      onStar p q = some answer → (answer = true ↔ Overlap M plain (none :: p) q)

theorem reduced_of_append_left (h : Reduced (p ++ q)) : Reduced p :=
  List.IsChain.left_of_append h

theorem stripBack_overlap (hd : DecidesOverlap M plain G back clean onStar) {answer : Bool}
    (hp : AllLetters G p.reverse) (hq : AllLetters G q.reverse) (hrp : Reduced (none :: p.reverse))
    (hrq : Reduced q.reverse) (h : stripBack true back clean onStar p q = some answer) :
    answer = true ↔ Overlap M plain (none :: p.reverse) q.reverse := by
  induction p generalizing q with
  | nil =>
    simp only [stripBack, some.injEq] at h
    subst h
    exact hd.clean_iff q.reverse hq hrq
  | cons a p ih =>
    match a, q with
    | a, [] =>
      simp only [stripBack, some.injEq] at h
      subst h
      rw [reverse_nil, overlap_nil_iff hrp]
      simp
    | none, b :: q =>
      refine hd.onStar_iff _ _ answer hp hq hrp hrq (by simp) (by simp) ?_ h
      exact Or.inl ⟨p.reverse, by simp⟩
    | some a, none :: q =>
      refine hd.onStar_iff _ _ answer hp hq hrp hrq (by simp) (by simp) ?_ h
      exact Or.inr ⟨q.reverse, by simp⟩
    | some a, some b :: q =>
      have hmeet := hd.back_iff a b (hp a (by simp)) (hq b (by simp))
      simp only [reverse_cons] at hp hq hrp hrq ⊢
      rw [← cons_append, overlap_concat_letter_letter_iff, ← hmeet]
      rw [stripBack] at h
      split_ifs at h with hab
      · have hrp' : Reduced (none :: p.reverse) := by
          rw [← cons_append] at hrp
          exact reduced_of_append_left hrp
        have hstep := ih (hp.of_subset (subset_append_left _ _))
          (hq.of_subset (subset_append_left _ _)) hrp' (reduced_of_append_left hrq) h
        rw [hstep]
        simp [hab]
      · simp only [some.injEq] at h
        subst h
        simp [hab]

/-- Taking letters off both ends answers whether two reduced patterns overlap, whenever it
answers. -/
theorem stripFront_overlap (hd : DecidesOverlap M plain G back clean onStar)
    (hfront : ∀ a b, G a → G b → (front a b = true ↔ LettersMeet M a b)) {answer : Bool}
    (hp : AllLetters G p) (hq : AllLetters G q) (hrp : Reduced p) (hrq : Reduced q)
    (h : stripFront true front back clean onStar p q = some answer) :
    answer = true ↔ Overlap M plain p q := by
  induction p generalizing q with
  | nil =>
    simp only [stripFront, some.injEq] at h
    subst h
    rw [overlap_comm, overlap_nil_iff hrq]
    simp [isLoneStar_iff]
  | cons a p ih =>
    match a, q with
    | a, [] =>
      simp only [stripFront, some.injEq] at h
      subst h
      rw [overlap_nil_iff hrp, isLoneStar_iff]
      simp
    | none, b :: q =>
      have hback := stripBack_overlap hd (p := p.reverse) (q := (b :: q).reverse)
        (by simpa using hp.of_subset (subset_cons_self _ _)) (by simpa using hq)
        (by simpa using hrp) (by simpa using hrq) h
      simpa using hback
    | some a, none :: q =>
      have hback := stripBack_overlap hd (p := q.reverse) (q := (some a :: p).reverse)
        (by simpa using hq.of_subset (subset_cons_self _ _)) (by simpa using hp)
        (by simpa using hrq) (by simpa using hrp) h
      rw [overlap_comm]
      simpa using hback
    | some a, some b :: q =>
      have hmeet := hfront a b (hp a (by simp)) (hq b (by simp))
      rw [overlap_letter_letter_iff, ← hmeet]
      rw [stripFront] at h
      split_ifs at h with hab
      · rw [ih (hp.of_subset (subset_cons_self _ _))
          (hq.of_subset (subset_cons_self _ _)) hrp.tail hrq.tail h]
        simp [hab]
      · simp only [some.injEq] at h
        subst h
        simp [hab]

end Overlap

section Covers

variable {M : α → β → Prop} {plain : β → Prop} {G : α → Prop}
  {front back : α → α → Bool} {clean : List (Option α) → Bool}
  {onStar : List (Option α) → List (Option α) → Option Bool}

/-- Assumes: an accepted comparison of two good letters means the first covers the second, clean
rests are covered by a star, and a middle whose treatment answers yes is covered. -/
structure ShowsCovers (M : α → β → Prop) (plain : β → Prop) (G : α → Prop)
    (back : α → α → Bool) (clean : List (Option α) → Bool)
    (onStar : List (Option α) → List (Option α) → Option Bool) : Prop where
  back_covers : ∀ a b, G a → G b → back a b = true → LetterCovers M a b
  clean_covers : ∀ q, AllLetters G q → clean q = true → Covers M plain [none] q
  onStar_covers : ∀ p q, AllLetters G p → AllLetters G q → Reduced (none :: p) → Reduced q →
    EndsInStar p → onStar p q = some true → Covers M plain (none :: p) q

theorem stripBack_covers (hd : ShowsCovers M plain G back clean onStar)
    (hp : AllLetters G p.reverse) (hq : AllLetters G q.reverse) (hrp : Reduced (none :: p.reverse))
    (hrq : Reduced q.reverse) (h : stripBack false back clean onStar p q = some true) :
    Covers M plain (none :: p.reverse) q.reverse := by
  induction p generalizing q with
  | nil =>
    simp only [stripBack, some.injEq] at h
    exact hd.clean_covers q.reverse hq h
  | cons a p ih =>
    match a, q with
    | a, [] => simp [stripBack] at h
    | none, b :: q => exact hd.onStar_covers _ _ hp hq hrp hrq ⟨p.reverse, by simp⟩ h
    | some a, none :: q => simp [stripBack] at h
    | some a, some b :: q =>
      rw [stripBack] at h
      split_ifs at h with hab
      swap
      · exact absurd h (by simp)
      have hcov := hd.back_covers a b (hp a (by simp)) (hq b (by simp)) hab
      simp only [reverse_cons] at hp hq hrp hrq ⊢
      have hrp' : Reduced (none :: p.reverse) := by
        rw [← cons_append] at hrp
        exact reduced_of_append_left hrp
      have hstep := ih (hp.of_subset (subset_append_left _ _))
        (hq.of_subset (subset_append_left _ _)) hrp' (reduced_of_append_left hrq) h
      exact covers_letter_concat hcov hstep

/-- When taking letters off both ends answers yes, the first pattern covers the second. -/
theorem stripFront_covers (hd : ShowsCovers M plain G back clean onStar)
    (hfront : ∀ a b, G a → G b → front a b = true → LetterCovers M a b) (hp : AllLetters G p)
    (hq : AllLetters G q) (hrp : Reduced p) (hrq : Reduced q)
    (h : stripFront false front back clean onStar p q = some true) : Covers M plain p q := by
  induction p generalizing q with
  | nil =>
    simp only [stripFront, Bool.false_and, Bool.or_false, some.injEq, List.isEmpty_iff] at h
    subst h
    exact covers_nil
  | cons a p ih =>
    match a, q with
    | a, [] =>
      simp only [stripFront, some.injEq, isLoneStar_iff] at h
      rw [h]
      intro w hw
      rw [matches_nil_iff] at hw
      subst hw
      exact matches_singleton_star_iff.mpr (by simp)
    | none, b :: q =>
      have hback := stripBack_covers hd (p := p.reverse) (q := (b :: q).reverse)
        (by simpa using hp.of_subset (subset_cons_self _ _)) (by simpa using hq)
        (by simpa using hrp) (by simpa using hrq) h
      simpa using hback
    | some a, none :: q => simp [stripFront] at h
    | some a, some b :: q =>
      rw [stripFront] at h
      split_ifs at h with hab
      swap
      · exact absurd h (by simp)
      have hcov := hfront a b (hp a (by simp)) (hq b (by simp)) hab
      exact covers_letter_cons hcov (ih (hp.of_subset (subset_cons_self _ _))
        (hq.of_subset (subset_cons_self _ _)) hrp.tail hrq.tail h)

end Covers

section NoStar

variable {front front' back back' : α → α → Bool} {clean : List (Option α) → Bool}
  {onStar onStar' : List (Option α) → List (Option α) → Option Bool}

/-- Assumes: a second pattern without stars, whose letters and parts both comparisons treat alike.
Then it makes no difference whether its stars count. -/
theorem stripBack_noStar (hq : none ∉ q) (hback : ∀ a b, some b ∈ q → back a b = back' a b)
    (honStar : ∀ p q', q' ⊆ q → onStar p q' = onStar' p q') :
    stripBack true back clean onStar p q = stripBack false back' clean onStar' p q := by
  induction p generalizing q with
  | nil => rfl
  | cons a p ih =>
    match a, q with
    | a, [] => cases a <;> rfl
    | none, b :: q =>
      rw [stripBack, stripBack]
      exact honStar _ _ fun x hx ↦ mem_reverse.mp hx
    | some a, none :: q => exact absurd mem_cons_self hq
    | some a, some b :: q =>
      have hrest := ih (fun h ↦ hq (mem_cons_of_mem _ h))
        (fun a b hb ↦ hback a b (mem_cons_of_mem _ hb))
        (fun p q' hsub ↦ honStar p q' (List.Subset.trans hsub (subset_cons_self _ _)))
      rw [stripBack, stripBack, hback a b mem_cons_self, hrest]

theorem stripFront_noStar (hq : none ∉ q) (hfront : ∀ a b, some b ∈ q → front a b = front' a b)
    (hback : ∀ a b, some b ∈ q → back a b = back' a b)
    (honStar : ∀ p q', q' ⊆ q → onStar p q' = onStar' p q') :
    stripFront true front back clean onStar p q = stripFront false front' back' clean onStar' p q := by
  induction p generalizing q with
  | nil =>
    rw [stripFront, stripFront]
    match q with
    | [] => rfl
    | none :: q => exact absurd mem_cons_self hq
    | some b :: q => rfl
  | cons a p ih =>
    match a, q with
    | a, [] => cases a <;> rfl
    | none, b :: q =>
      rw [stripFront, stripFront]
      refine stripBack_noStar (fun h ↦ hq (mem_reverse.mp h))
        (fun a b hb ↦ hback a b (mem_reverse.mp hb)) fun p q' hsub ↦ honStar p q' ?_
      exact fun x hx ↦ mem_reverse.mp (hsub hx)
    | some a, none :: q => exact absurd mem_cons_self hq
    | some a, some b :: q =>
      have hrest := ih (fun h ↦ hq (mem_cons_of_mem _ h))
        (fun a b hb ↦ hfront a b (mem_cons_of_mem _ hb))
        (fun a b hb ↦ hback a b (mem_cons_of_mem _ hb))
        (fun p q' hsub ↦ honStar p q' (List.Subset.trans hsub (subset_cons_self _ _)))
      rw [stripFront, stripFront, hfront a b mem_cons_self, hrest]

end NoStar

/-! ### When there is no answer -/

section NoAnswer

variable {both : Bool} {front back : α → α → Bool} {clean : List (Option α) → Bool}
  {onStar onStar' : List (Option α) → List (Option α) → Option Bool}

/-- The pair of middles the stripping comes to: letters are accepted off the front of both patterns
up to a star of the first, and off the back of both. -/
def Facing (front back : α → α → Bool) (p q x y : List (Option α)) : Prop :=
  ∃ f g b c, p = f.map some ++ none :: (x ++ b.map some) ∧ q = g.map some ++ (y ++ c.map some) ∧
    List.Forall₂ (fun a b ↦ front a b = true) f g ∧ List.Forall₂ (fun a b ↦ back a b = true) b c

theorem facing_letter_iff {x y : List (Option α)} {a b : α} :
    Facing front back (some a :: p) (some b :: q) x y ↔
      front a b = true ∧ Facing front back p q x y := by
  constructor
  · rintro ⟨f, g, s, t, hp, hq, hfg, hst⟩
    cases hfg with
    | nil => simp at hp
    | cons hab hfg =>
      simp only [map_cons, cons_append, List.cons.injEq, some.injEq] at hp hq
      obtain ⟨rfl, rfl⟩ := hp
      obtain ⟨rfl, rfl⟩ := hq
      exact ⟨hab, _, _, s, t, rfl, rfl, hfg, hst⟩
  · rintro ⟨hab, f, g, s, t, rfl, rfl, hfg, hst⟩
    exact ⟨a :: f, b :: g, s, t, rfl, rfl, .cons hab hfg, hst⟩

theorem facing_star_iff {x y : List (Option α)} : Facing front back (none :: p) q x y ↔
      ∃ s t, p = x ++ s.map some ∧ q = y ++ t.map some ∧
        List.Forall₂ (fun a b ↦ back a b = true) s t := by
  constructor
  · rintro ⟨f, g, s, t, hp, hq, hfg, hst⟩
    cases hfg with
    | nil =>
      simp only [map_nil, nil_append, List.cons.injEq, true_and] at hp hq
      exact ⟨s, t, hp, hq, hst⟩
    | cons => simp at hp
  · rintro ⟨s, t, rfl, rfl, hst⟩
    exact ⟨[], [], s, t, rfl, rfl, .nil, hst⟩

end NoAnswer

end ZenohPico.Foundations
