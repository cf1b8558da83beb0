import ZenohPico.Keyexpr.KeyReading

/-!
Canonical key expressions as patterns over chunks. `canonicalChunk_iff` reads the conditions on the
bytes of a canonical chunk off its byte pattern, which also makes them decidable; the rest says what
the matchers need to know of a canonical key expression.
-/

namespace ZenohPico.Keyexpr

open Foundations List

/-! ### Chunks -/

variable {c s : Bytes}

theorem reduced_tokenize (h : ¬ dollarStar ++ dollarStar <:+: c) : Reduced (tokenize c) := by
  rw [Reduced, isChain_iff_forall_rel_of_append_cons_cons]
  intro a b p q htok
  by_contra hnot
  simp only [not_or, not_not] at hnot
  obtain ⟨rfl, rfl⟩ := hnot
  refine h ⟨untokenize p, untokenize q, ?_⟩
  rw [← untokenize_tokenize c, htok, untokenize_append]
  simp [untokenize, dollarStar]

theorem CanonicalChunk.canonicalLetter (h : CanonicalChunk c) (hne : c ≠ doubleStar) :
    CanonicalLetter c := by
  by_cases hcs : c = starChunk
  · exact Or.inl hcs
  refine Or.inr ⟨h.ne_nil, ?_, reduced_tokenize h.no_repeat, ?_⟩
  · exact literal_of_mem_tokenize h.no_sharp h.no_qmark h.dollar_star (h.star_dollar hcs hne)
  · intro htok
    refine h.not_lone ?_
    rw [← untokenize_tokenize c, htok]
    rfl

/-- The bytes of a pattern of literal letters: `$` and `*` stand in pairs. -/
structure PairedText (t : Bytes) : Prop where
  no_sharp : sharp ∉ t
  no_qmark : qmark ∉ t
  dollar_star : ∀ i, t[i]? = some dsl0 → t[i + 1]? = some star
  star_dollar : ∀ i, t[i]? = some star → ∃ j, i = j + 1 ∧ t[j]? = some dsl0

theorem PairedText.cons_literal (h : PairedText c) {a : UInt8} (ha : Literal a) :
    PairedText (a :: c) := by
  obtain ⟨hs, hq, hd, hst⟩ := ha
  refine ⟨?_, ?_, ?_, ?_⟩
  · simpa [hs.symm] using h.no_sharp
  · simpa [hq.symm] using h.no_qmark
  · rintro (_ | i) hi
    · exact absurd (by simpa using hi) hd
    · simpa using h.dollar_star i (by simpa using hi)
  · rintro (_ | i) hi
    · exact absurd (by simpa using hi) hst
    · obtain ⟨j, rfl, hj⟩ := h.star_dollar i (by simpa using hi)
      exact ⟨j + 1, rfl, by simpa using hj⟩

theorem PairedText.cons_dollarStar (h : PairedText c) : PairedText (dsl0 :: star :: c) := by
  refine ⟨?_, ?_, ?_, ?_⟩
  · simpa [sharp, dsl0, star] using h.no_sharp
  · simpa [qmark, dsl0, star] using h.no_qmark
  · rintro (_ | _ | i) hi
    · rfl
    · simp [dsl0, star] at hi
    · simpa using h.dollar_star i (by simpa using hi)
  · rintro (_ | _ | i) hi
    · simp [dsl0, star] at hi
    · exact ⟨0, rfl, rfl⟩
    · obtain ⟨j, rfl, hj⟩ := h.star_dollar i (by simpa using hi)
      exact ⟨j + 2, rfl, by simpa using hj⟩

variable {p : List (Option UInt8)}

theorem pairedText_untokenize (hp : AllLetters Literal p) : PairedText (untokenize p) := by
  induction p with
  | nil => exact ⟨by simp [untokenize], by simp [untokenize], by simp [untokenize],
      by simp [untokenize]⟩
  | cons a p ih =>
    have hrest := ih (hp.of_subset (subset_cons_self _ _))
    cases a with
    | none => exact hrest.cons_dollarStar
    | some a => exact hrest.cons_literal (hp a (by simp))

/-- Two stars in a row in the text come from two stars in a row in the pattern. -/
theorem no_repeat_of_reduced (hp : AllLetters Literal p) (hr : Reduced p) :
    ¬ dollarStar ++ dollarStar <:+: untokenize p := by
  induction p with
  | nil => simp [untokenize, dollarStar]
  | cons a p ih =>
    have hrest := ih (hp.of_subset (subset_cons_self _ _)) hr.tail
    cases a with
    | some a =>
      rw [untokenize, infix_cons_iff]
      rintro (⟨t, ht⟩ | h)
      · obtain ⟨rfl, -⟩ := List.cons.inj ht
        exact (hp dsl0 (by simp)).2.2.1 rfl
      · exact hrest h
    | none =>
      rw [untokenize, infix_cons_iff, infix_cons_iff]
      rintro (⟨t, ht⟩ | ⟨t, ht⟩ | h)
      · -- the second `$*` would open the rest of the pattern
        have ht' : dsl0 :: star :: t = untokenize p := by simpa [dollarStar] using ht
        rcases p with _ | ⟨_ | b, p⟩
        · simp [untokenize] at ht'
        · simp [Reduced] at hr
        · obtain ⟨rfl, -⟩ := List.cons.inj ht'
          exact (hp dsl0 (by simp)).2.2.1 rfl
      · have hhead : dsl0 = star := (List.cons.inj ht).1
        exact absurd hhead (by decide)
      · exact hrest h

theorem CanonicalLetter.canonicalChunk (h : CanonicalLetter c) : CanonicalChunk c := by
  rcases h with rfl | ⟨hne, hlit, hred, hstar⟩
  · refine ⟨by decide, by decide, by decide, ?_, fun h ↦ absurd rfl h, ?_, by decide⟩
    · rintro (_ | i) hi
      · simp [starChunk, star, dsl0] at hi
      · simp [starChunk] at hi
    · intro h
      have := h.length_le
      simp [dollarStar, starChunk] at this
  · have htext := pairedText_untokenize hlit
    have hrepeat := no_repeat_of_reduced hlit hred
    rw [untokenize_tokenize] at htext hrepeat
    refine ⟨hne, htext.no_sharp, htext.no_qmark, htext.dollar_star, fun _ _ ↦ htext.star_dollar,
      hrepeat, ?_⟩
    rintro rfl
    exact hstar rfl

theorem canonicalChunk_doubleStar : CanonicalChunk doubleStar := by
  refine ⟨by decide, by decide, by decide, ?_, fun _ h ↦ absurd rfl h, ?_, by decide⟩
  · rintro (_ | _ | i) hi
    · simp [doubleStar, star, dsl0] at hi
    · simp [doubleStar, star, dsl0] at hi
    · simp [doubleStar] at hi
  · intro h
    have := h.length_le
    simp [dollarStar, doubleStar] at this

/-- The canonical chunks are `**` and the letters. -/
theorem canonicalChunk_iff : CanonicalChunk c ↔ c = doubleStar ∨ CanonicalLetter c := by
  constructor
  · intro h
    by_cases hds : c = doubleStar
    · exact Or.inl hds
    · exact Or.inr (h.canonicalLetter hds)
  · rintro (rfl | h)
    · exact canonicalChunk_doubleStar
    · exact h.canonicalChunk

theorem allLetters_iff_all :
    (p.all fun e ↦ e.all fun a ↦ decide (Literal a)) = true ↔ AllLetters Literal p := by
  simp only [all_eq_true, Option.all_eq_true, decide_eq_true_iff]
  constructor
  · exact fun h a ha ↦ h (some a) ha a rfl
  · rintro h e he a rfl
    exact h a he

instance (p : List (Option UInt8)) : Decidable (AllLetters Literal p) :=
  decidable_of_iff _ allLetters_iff_all

instance {α : Type*} [DecidableEq α] (p : List (Option α)) : Decidable (Reduced p) :=
  inferInstanceAs (Decidable (p.IsChain _))

instance (c : Bytes) : Decidable (CanonicalLetter c) :=
  inferInstanceAs (Decidable (_ ∨ _))

instance (c : Bytes) : Decidable (CanonicalChunk c) := decidable_of_iff _ canonicalChunk_iff.symm

instance (s : Bytes) : Decidable (Canonical s) :=
  decidable_of_iff ((∀ c ∈ chunks s, CanonicalChunk c) ∧
      (chunks s).IsChain fun a b ↦ a = doubleStar → b ≠ starChunk ∧ b ≠ doubleStar)
    ⟨fun h ↦ ⟨h.1, h.2⟩, fun h ↦ ⟨h.chunk, h.after_double_star⟩⟩

/-! ### Key expressions -/

theorem mem_chunks_of_mem_patternOf {cs : List Bytes} (h : some c ∈ patternOf cs) :
    c ∈ cs ∧ c ≠ doubleStar := by
  rw [patternOf, mem_map] at h
  obtain ⟨d, hd, heq⟩ := h
  split_ifs at heq with hds
  rw [← Option.some.inj heq]
  exact ⟨hd, hds⟩

theorem chunks_ne_nil (s : Bytes) : chunks s ≠ [] := splitOn_ne_nil delimiter s

theorem patternOf_chunks_ne_nil (s : Bytes) : patternOf (chunks s) ≠ [] := by
  rw [patternOf, ne_eq, map_eq_nil_iff]
  exact chunks_ne_nil s

theorem Canonical.keyLetters (h : Canonical s) : AllLetters KeyLetter (patternOf (chunks s)) := by
  intro c hc
  obtain ⟨hmem, hds⟩ := mem_chunks_of_mem_patternOf hc
  exact ⟨(h.chunk c hmem).canonicalLetter hds, delimiter_notMem_of_mem_chunks hmem⟩

theorem Canonical.reduced (h : Canonical s) : Reduced (patternOf (chunks s)) := by
  rw [Reduced, patternOf, isChain_map]
  refine h.after_double_star.imp fun a b hab ↦ ?_
  by_cases ha : a = doubleStar
  · have hb := (hab ha).2
    simp [ha, hb]
  · simp [ha]

/-- A canonical key expression, from its first byte to its end, holds the chunks of its pattern. -/
theorem Canonical.keyAt (h : Canonical s) : KeyAt s 0 s.length (patternOf (chunks s)) := by
  refine ⟨h.keyLetters, fun hnil ↦ absurd hnil (patternOf_chunks_ne_nil s), fun _ ↦ ?_⟩
  rw [keyText_patternOf_chunks]
  exact ⟨reads_self s, (Nat.zero_add _).symm⟩

end ZenohPico.Keyexpr
