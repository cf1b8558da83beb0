import ZenohPico.Foundations.StarPattern
import Mathlib.Data.List.Forall2

/-!
Searching a list for several segments, in order and without overlap, and what such a search says
about a pattern with a star before, between and after its segments. The leftmost occurrence of each
segment is the one to take: it leaves the longest rest for the segments that follow.
-/

open List Option

namespace ZenohPico.Foundations

variable {α β γ : Type*}

/-! ### Finding segments in order -/

/-- The segments occur in the list one after the other, entry for entry related by `r`. -/
def Finds (r : α → γ → Prop) : List (List α) → List γ → Prop
  | [], _ => True
  | seg :: segs, q =>
    ∃ pre mid rest, q = pre ++ (mid ++ rest) ∧ List.Forall₂ r seg mid ∧ Finds r segs rest

/-- What is left of the list after a segment at its front. -/
def dropSegment (r : α → γ → Bool) : List α → List γ → Option (List γ)
  | [], q => some q
  | _ :: _, [] => none
  | a :: seg, b :: q => if r a b then dropSegment r seg q else none

/-- What is left of the list after the leftmost occurrence of a segment. -/
def searchSegment (r : α → γ → Bool) (seg : List α) : List γ → Option (List γ)
  | [] => dropSegment r seg []
  | b :: q =>
    match dropSegment r seg (b :: q) with
    | some rest => some rest
    | none => searchSegment r seg q

/-- Take the leftmost occurrence of each segment in turn. -/
def searchSegments (r : α → γ → Bool) : List (List α) → List γ → Bool
  | [], _ => true
  | seg :: segs, q =>
    match searchSegment r seg q with
    | some rest => searchSegments r segs rest
    | none => false

variable {segs : List (List α)} {q : List γ} {seg : List α}

theorem Finds.append_left {r : α → γ → Prop} (h : Finds r segs q) (pre : List γ) :
    Finds r segs (pre ++ q) := by
  cases segs with
  | nil => trivial
  | cons seg segs =>
    obtain ⟨pre', mid, rest, rfl, hmid, hrest⟩ := h
    exact ⟨pre ++ pre', mid, rest, by simp, hmid, hrest⟩

theorem forall₂_imp_mem {r r' : α → γ → Prop} {mid : List γ}
    (hr : ∀ a ∈ seg, ∀ b ∈ mid, r a b → r' a b) (h : List.Forall₂ r seg mid) :
    List.Forall₂ r' seg mid := by
  induction h with
  | nil => exact .nil
  | cons hab _ ih =>
    refine .cons (hr _ (by simp) _ (by simp) hab) (ih fun a ha b hb ↦ ?_)
    exact hr a (mem_cons_of_mem _ ha) b (mem_cons_of_mem _ hb)

theorem Finds.imp_mem {r r' : α → γ → Prop} (hr : ∀ seg ∈ segs, ∀ a ∈ seg, ∀ b ∈ q, r a b → r' a b)
    (h : Finds r segs q) : Finds r' segs q := by
  induction segs generalizing q with
  | nil => trivial
  | cons seg segs ih =>
    obtain ⟨pre, mid, rest, rfl, hmid, hrest⟩ := h
    refine ⟨pre, mid, rest, rfl, forall₂_imp_mem (fun a ha b hb ↦ ?_) hmid, ih ?_ hrest⟩
    · exact hr seg (by simp) a ha b (by simp [hb])
    · exact fun seg hseg a ha b hb ↦ hr seg (mem_cons_of_mem _ hseg) a ha b (by simp [hb])

section Search

variable {r : α → γ → Bool}

theorem dropSegment_eq_some_iff {rest : List γ} : dropSegment r seg q = some rest ↔
      ∃ mid, q = mid ++ rest ∧ List.Forall₂ (fun a b ↦ r a b = true) seg mid := by
  induction seg generalizing q with
  | nil =>
    simp only [dropSegment, some.injEq, forall₂_nil_left_iff]
    constructor
    · rintro rfl
      exact ⟨[], rfl, rfl⟩
    · rintro ⟨mid, rfl, rfl⟩
      rfl
  | cons a seg ih =>
    cases q with
    | nil =>
      simp only [dropSegment, reduceCtorEq, false_iff]
      rintro ⟨mid, heq, hmid⟩
      obtain ⟨rfl, -⟩ := append_eq_nil_iff.mp heq.symm
      exact absurd hmid (by simp)
    | cons b q =>
      rw [dropSegment]
      split_ifs with hr
      · rw [ih]
        constructor
        · rintro ⟨mid, rfl, hmid⟩
          exact ⟨b :: mid, rfl, .cons hr hmid⟩
        · rintro ⟨mid, heq, hmid⟩
          obtain ⟨c, tail, hc, htail, rfl⟩ := forall₂_cons_left_iff.mp hmid
          obtain ⟨rfl, rfl⟩ := List.cons.inj heq
          exact ⟨tail, rfl, htail⟩
      · simp only [false_iff]
        rintro ⟨mid, heq, hmid⟩
        obtain ⟨c, tail, hc, htail, rfl⟩ := forall₂_cons_left_iff.mp hmid
        obtain ⟨rfl, rfl⟩ := List.cons.inj heq
        exact hr hc

/-- A search that succeeds has found an occurrence. -/
theorem exists_of_searchSegment {rest : List γ} (h : searchSegment r seg q = some rest) :
    ∃ pre mid, q = pre ++ (mid ++ rest) ∧ List.Forall₂ (fun a b ↦ r a b = true) seg mid := by
  induction q with
  | nil =>
    obtain ⟨mid, heq, hmid⟩ := dropSegment_eq_some_iff.mp h
    exact ⟨[], mid, heq, hmid⟩
  | cons b q ih =>
    rw [searchSegment] at h
    split at h
    case h_1 rest' hdrop =>
      cases h
      obtain ⟨mid, heq, hmid⟩ := dropSegment_eq_some_iff.mp hdrop
      exact ⟨[], mid, heq, hmid⟩
    case h_2 =>
      obtain ⟨pre, mid, rfl, hmid⟩ := ih h
      exact ⟨b :: pre, mid, rfl, hmid⟩

/-- Wherever the segment occurs, the search succeeds and leaves at least as much. -/
theorem searchSegment_of_occurrence {mid : List γ} (pre rest : List γ)
    (hmid : List.Forall₂ (fun a b ↦ r a b = true) seg mid) :
    ∃ more, searchSegment r seg (pre ++ (mid ++ rest)) = some (more ++ rest) := by
  induction pre with
  | nil =>
    have hdrop : dropSegment r seg (mid ++ rest) = some rest :=
      dropSegment_eq_some_iff.mpr ⟨mid, rfl, hmid⟩
    refine ⟨[], ?_⟩
    rw [nil_append]
    cases hq : mid ++ rest with
    | nil =>
      rw [hq] at hdrop
      exact hdrop
    | cons b q =>
      rw [hq] at hdrop
      rw [searchSegment, hdrop]
      rfl
  | cons b pre ih =>
    rw [cons_append, searchSegment]
    split
    case h_1 rest' hdrop =>
      -- an occurrence further left: what follows it ends with what follows this one
      obtain ⟨mid', heq, hmid'⟩ := dropSegment_eq_some_iff.mp hdrop
      have hlen : mid'.length = mid.length := by rw [← hmid'.length_eq, hmid.length_eq]
      have hsplit : mid' ++ rest' = ((b :: pre) ++ mid) ++ rest := by simpa using heq.symm
      have hlong : rest <:+ mid' ++ rest' := ⟨(b :: pre) ++ mid, hsplit.symm⟩
      have hsuffix : rest <:+ rest' := by
        refine suffix_of_suffix_length_le hlong ⟨mid', rfl⟩ ?_
        have hcount := congrArg List.length hsplit
        simp only [length_append, length_cons] at hcount
        omega
      obtain ⟨more, rfl⟩ := hsuffix
      exact ⟨more, rfl⟩
    case h_2 => exact ih

/-- The greedy search decides whether the segments occur in order. -/
theorem searchSegments_iff :
    searchSegments r segs q = true ↔ Finds (fun a b ↦ r a b = true) segs q := by
  induction segs generalizing q with
  | nil => simp [searchSegments, Finds]
  | cons seg segs ih =>
    rw [searchSegments, Finds]
    constructor
    · intro h
      split at h
      case h_1 rest hsearch =>
        obtain ⟨pre, mid, rfl, hmid⟩ := exists_of_searchSegment hsearch
        exact ⟨pre, mid, rest, rfl, hmid, ih.mp h⟩
      case h_2 => exact absurd h (by simp)
    · rintro ⟨pre, mid, rest, rfl, hmid, hrest⟩
      obtain ⟨more, hsearch⟩ := searchSegment_of_occurrence pre rest hmid
      rw [hsearch]
      exact ih.mpr (hrest.append_left more)

theorem dropSegment_congr {r' : α → γ → Bool} (h : ∀ a ∈ seg, ∀ b ∈ q, r a b = r' a b) :
    dropSegment r seg q = dropSegment r' seg q := by
  induction seg generalizing q with
  | nil => rfl
  | cons a seg ih =>
    cases q with
    | nil => rfl
    | cons b q =>
      have hrest := ih (q := q) fun a ha b hb ↦
        h a (mem_cons_of_mem _ ha) b (mem_cons_of_mem _ hb)
      rw [dropSegment, dropSegment, h a (by simp) b (by simp), hrest]

theorem searchSegment_congr {r' : α → γ → Bool} (h : ∀ a ∈ seg, ∀ b ∈ q, r a b = r' a b) :
    searchSegment r seg q = searchSegment r' seg q := by
  induction q with
  | nil => exact dropSegment_congr h
  | cons b q ih =>
    have hrest := ih fun a ha b hb ↦ h a ha b (mem_cons_of_mem _ hb)
    rw [searchSegment, searchSegment, dropSegment_congr h, hrest]

/-! A search among renamed entries finds what it found before, where the renaming keeps the
relation. -/

variable {s : α → α → Bool}

theorem dropSegment_map {β : Type*} {r' : β → β → Bool} (f : α → β) {q : List α}
    (h : ∀ a ∈ seg, ∀ b ∈ q, r' (f a) (f b) = s a b) :
    dropSegment r' (seg.map f) (q.map f) = (dropSegment s seg q).map (List.map f) := by
  induction seg generalizing q with
  | nil => rfl
  | cons a seg ih =>
    cases q with
    | nil => rfl
    | cons b q =>
      have hrest := ih (q := q) fun a ha b hb ↦
        h a (mem_cons_of_mem _ ha) b (mem_cons_of_mem _ hb)
      rw [map_cons, map_cons, dropSegment, dropSegment, h a (by simp) b (by simp), hrest]
      split_ifs <;> rfl

theorem searchSegment_map {β : Type*} {r' : β → β → Bool} (f : α → β) {q : List α}
    (h : ∀ a ∈ seg, ∀ b ∈ q, r' (f a) (f b) = s a b) :
    searchSegment r' (seg.map f) (q.map f) = (searchSegment s seg q).map (List.map f) := by
  induction q with
  | nil => exact dropSegment_map f h
  | cons b q ih =>
    have hrest := ih fun a ha b hb ↦ h a ha b (mem_cons_of_mem _ hb)
    have hdrop := dropSegment_map f h
    rw [map_cons] at hdrop
    rw [map_cons, searchSegment, searchSegment, hdrop, hrest]
    cases dropSegment s seg (b :: q) <;> rfl

theorem searchSegments_map {β : Type*} {r' : β → β → Bool} (f : α → β) {q : List α}
    (h : ∀ seg ∈ segs, ∀ a ∈ seg, ∀ b ∈ q, r' (f a) (f b) = s a b) :
    searchSegments r' (segs.map (List.map f)) (q.map f) = searchSegments s segs q := by
  induction segs generalizing q with
  | nil => rfl
  | cons seg segs ih =>
    rw [map_cons, searchSegments, searchSegments,
      searchSegment_map f fun a ha b hb ↦ h seg mem_cons_self a ha b hb]
    rcases hsearch : searchSegment s seg q with _ | rest
    · rfl
    · obtain ⟨pre, mid, rfl, -⟩ := exists_of_searchSegment hsearch
      exact ih fun seg hseg a ha b hb ↦ h seg (mem_cons_of_mem _ hseg) a ha b (by simp [hb])

end Search

/-! ### Patterns with a star on both sides of every segment -/

/-- The pattern with a star before, between and after the given segments. -/
def starred : List (List α) → List (Option α)
  | [] => [none]
  | seg :: segs => none :: (seg.map some ++ starred segs)

/-- The runs of letters between the stars of a pattern. -/
def segments : List (Option α) → List (List α)
  | [] => [[]]
  | none :: p => [] :: segments p
  | some a :: p =>
    match segments p with
    | [] => [[a]]
    | seg :: segs => (a :: seg) :: segs

theorem segments_ne_nil (p : List (Option α)) : segments p ≠ [] := by
  match p with
  | [] => simp [segments]
  | none :: p => simp [segments]
  | some a :: p =>
    rw [segments]
    split <;> simp

theorem starred_segments (p : List (Option α)) : starred (segments p) = none :: (p ++ [none]) := by
  induction p with
  | nil => rfl
  | cons a p ih =>
    cases a with
    | none => simp [segments, starred, ih]
    | some a =>
      cases hseg : segments p with
      | nil => exact absurd hseg (segments_ne_nil p)
      | cons seg segs =>
        rw [hseg] at ih
        simp only [starred, List.cons.injEq, true_and] at ih
        simp [segments, hseg, starred, ih]

theorem segments_map {β : Type*} (f : α → β) (p : List (Option α)) :
    segments (p.map (Option.map f)) = (segments p).map (List.map f) := by
  induction p with
  | nil => rfl
  | cons a p ih =>
    cases a with
    | none => rw [map_cons, map_none, segments, segments, ih, map_cons, map_nil]
    | some a =>
      rw [map_cons, map_some, segments, segments, ih]
      cases segments p <;> rfl

/-- Relate a letter to an entry of a pattern: a star is related to nothing. -/
def OnLetter (r : α → α → Prop) (a : α) (entry : Option α) : Prop :=
  ∃ b, entry = some b ∧ r a b

section Starred

variable {M : α → β → Prop} {plain : β → Prop}

/-- A pattern without stars is cut wherever its word is cut. -/
theorem matches_split_word {q : List (Option α)} {u v : List β} (hq : none ∉ q)
    (h : Matches M plain q (u ++ v)) :
    ∃ q₁ q₂, q = q₁ ++ q₂ ∧ Matches M plain q₁ u ∧ Matches M plain q₂ v := by
  induction u generalizing q with
  | nil => exact ⟨[], q, rfl, .nil, h⟩
  | cons x u ih =>
    rw [cons_append] at h
    match q, hq with
    | [], _ => exact absurd (matches_nil_iff.mp h) (by simp)
    | none :: q, hq => exact absurd (mem_cons_self) hq
    | some b :: q, hq =>
      obtain ⟨y, w, heq, hy, hw⟩ := matches_letter_iff.mp h
      obtain ⟨rfl, rfl⟩ := List.cons.inj heq
      obtain ⟨q₁, q₂, rfl, h₁, h₂⟩ := ih (fun hmem ↦ hq (mem_cons_of_mem _ hmem)) hw
      exact ⟨some b :: q₁, q₂, rfl, .letter hy h₁, h₂⟩

theorem forall₂_meet_of_matches {q : List (Option α)} {w : List β} (hq : none ∉ q)
    (hseg : Matches M plain (seg.map some) w) (hw : Matches M plain q w) :
    List.Forall₂ (OnLetter (LettersMeet M)) seg q := by
  induction seg generalizing q w with
  | nil =>
    rw [map_nil, matches_nil_iff] at hseg
    subst hseg
    match q, hq with
    | [], _ => exact .nil
    | none :: q, hq => exact absurd (mem_cons_self) hq
    | some b :: q, _ =>
      obtain ⟨y, v, heq, -⟩ := matches_letter_iff.mp hw
      exact absurd heq (by simp)
  | cons a seg ih =>
    rw [map_cons] at hseg
    obtain ⟨x, v, rfl, hx, hv⟩ := matches_letter_iff.mp hseg
    match q, hq with
    | [], _ => exact absurd (matches_nil_iff.mp hw) (by simp)
    | none :: q, hq => exact absurd (mem_cons_self) hq
    | some b :: q, hq =>
      obtain ⟨y, v', heq, hy, hv'⟩ := matches_letter_iff.mp hw
      obtain ⟨rfl, rfl⟩ := List.cons.inj heq
      exact .cons ⟨b, rfl, x, hx, hy⟩ (ih (fun hmem ↦ hq (mem_cons_of_mem _ hmem)) hv hv')

theorem overlap_of_forall₂_meet {mid p q : List (Option α)}
    (hmid : List.Forall₂ (OnLetter (LettersMeet M)) seg mid) (h : Overlap M plain p q) :
    Overlap M plain (seg.map some ++ p) (mid ++ q) := by
  induction hmid with
  | nil => exact h
  | cons hab _ ih =>
    obtain ⟨b, rfl, hmeet⟩ := hab
    exact overlap_letter_letter_iff.mpr ⟨hmeet, ih⟩

/-- Against a pattern without stars, a starred pattern has a common word exactly when its segments
are found in order. -/
theorem overlap_starred_iff {q : List (Option α)} (hq : none ∉ q) (hplain : PlainLetters M plain q)
    (hlive : LiveLetters M q) :
    Overlap M plain (starred segs) q ↔ Finds (OnLetter (LettersMeet M)) segs q := by
  induction segs generalizing q with
  | nil => exact ⟨fun _ ↦ trivial, fun _ ↦ overlap_star_of_plain hplain hlive⟩
  | cons seg segs ih =>
    rw [starred, Finds]
    constructor
    · rintro ⟨w, hp, hqw⟩
      obtain ⟨u, v, rfl, -, hv⟩ := matches_star_iff.mp hp
      obtain ⟨v₁, v₂, rfl, hv₁, hv₂⟩ := matches_append_iff.mp hv
      obtain ⟨pre, q', rfl, -, hq'⟩ := matches_split_word hq hqw
      have hnot : none ∉ q' := fun hmem ↦ hq (mem_append_right _ hmem)
      obtain ⟨mid, rest, rfl, hmid, hrest⟩ := matches_split_word hnot hq'
      have hsub : rest ⊆ pre ++ (mid ++ rest) :=
        List.Subset.trans (subset_append_right _ _) (subset_append_right _ _)
      refine ⟨pre, mid, rest, rfl, ?_, ?_⟩
      · exact forall₂_meet_of_matches (fun hmem ↦ hnot (mem_append_left _ hmem)) hv₁ hmid
      · exact (ih (fun hmem ↦ hq (hsub hmem)) (hplain.of_subset hsub) (hlive.of_subset hsub)).mp
          ⟨v₂, hv₂, hrest⟩
    · rintro ⟨pre, mid, rest, rfl, hmid, hrest⟩
      have hpre : pre ⊆ pre ++ (mid ++ rest) := subset_append_left _ _
      have hsub : rest ⊆ pre ++ (mid ++ rest) :=
        List.Subset.trans (subset_append_right _ _) (subset_append_right _ _)
      refine overlap_star_append (hplain.of_subset hpre) (hlive.of_subset hpre) ?_
      refine overlap_of_forall₂_meet hmid ?_
      exact (ih (fun hmem ↦ hq (hsub hmem)) (hplain.of_subset hsub) (hlive.of_subset hsub)).mpr hrest

theorem covers_of_forall₂ {mid p q : List (Option α)}
    (hmid : List.Forall₂ (OnLetter (LetterCovers M)) seg mid) (h : Covers M plain p q) :
    Covers M plain (seg.map some ++ p) (mid ++ q) := by
  induction hmid with
  | nil => exact h
  | cons hab _ ih =>
    obtain ⟨b, rfl, hcov⟩ := hab
    exact covers_letter_cons hcov ih

/-- A starred pattern accepts every word of a pattern of plain letters in which its segments are
found in order, letter above letter. -/
theorem covers_starred {q : List (Option α)} (hplain : PlainLetters M plain q)
    (h : Finds (OnLetter (LetterCovers M)) segs q) : Covers M plain (starred segs) q := by
  induction segs generalizing q with
  | nil => exact covers_star_of_plain hplain
  | cons seg segs ih =>
    obtain ⟨pre, mid, rest, rfl, hmid, hrest⟩ := h
    refine covers_star_append (hplain.of_subset (subset_append_left _ _)) ?_
    refine covers_of_forall₂ hmid (ih (hplain.of_subset ?_) hrest)
    exact List.Subset.trans (subset_append_right _ _) (subset_append_right _ _)

end Starred

end ZenohPico.Foundations
