import ZenohPico.Keyexpr.CanonizeCorrect

/-!
What `_z_keyexpr_canonize` leaves of the beginning of a string. There are three places where it
writes something else: a `$*` behind a `$*`, a chunk that is `$*`, and a `**` in front of `*` or
`**`. What is in front of all of them stays.
-/

namespace ZenohPico.Keyexpr

open Foundations List

/-- How many bytes of a `**` and what is behind it stay where the next chunks are `*` or `**`: the
`*` are written in front of the `**`, and of several `**` one is left. -/
def wildKept (X : List Bytes) : ℕ :=
  if ∃ d ∈ leadWild X, d ≠ doubleStar then 1 else if behindWild X = [] then 2 else 3

/-- The first `k` bytes of a string are in front of what is rewritten. -/
structure Kept (t : Bytes) (k : ℕ) : Prop where
  repeated : ∀ u v, t = u ++ dollarStar ++ dollarStar ++ v → k ≤ u.length + 2
  lone : ∀ P X, collapsed t = P ++ dollarStar :: X → k ≤ (leadChunks P).length
  wild : ∀ P c X, collapsed t = P ++ doubleStar :: c :: X → c = starChunk ∨ c = doubleStar →
    k ≤ (leadChunks P).length + wildKept (c :: X)

theorem take_prefix_of_le {a t out : Bytes} {k : ℕ} (ht : a <+: t) (hout : a <+: out)
    (hk : k ≤ a.length) : t.take k <+: out := by
  obtain ⟨u, rfl⟩ := ht
  rw [take_append_of_le_length hk]
  exact (List.take_prefix k a).trans hout

/-! ### What is left when the repetitions are removed -/

/-- The symbols up to the first repetition stay. -/
theorem collapse_eq_or_repeated (q : List (Option UInt8)) :
    collapse false q = q ∨ ∃ q₁ q₂ r, q = q₁ ++ none :: none :: q₂ ∧
      collapse false q = q₁ ++ none :: r := by
  induction q with
  | nil => exact .inl rfl
  | cons a q ih =>
    cases a with
    | some a =>
      rcases ih with hsame | ⟨q₁, q₂, r, hq, hr⟩
      · exact .inl (by rw [collapse, hsame])
      · exact .inr ⟨some a :: q₁, q₂, r, by rw [hq]; rfl, by rw [collapse, hr]; rfl⟩
    | none =>
      cases q with
      | nil => exact .inl rfl
      | cons b q =>
        cases b with
        | none => exact .inr ⟨[], q, collapse true (none :: q), rfl, rfl⟩
        | some b =>
          have hbehind : collapse true (some b :: q) = collapse false (some b :: q) := rfl
          rcases ih with hsame | ⟨q₁, q₂, r, hq, hr⟩
          · exact .inl (by rw [collapse, hbehind, hsame])
          · exact .inr ⟨none :: q₁, q₂, r, by rw [hq]; rfl, by rw [collapse, hbehind, hr]; rfl⟩

/-- The bytes in front of the first repetition stay. -/
theorem take_prefix_collapse {t : Bytes} {k : ℕ}
    (h : ∀ u v, t = u ++ dollarStar ++ dollarStar ++ v → k ≤ u.length + 2) :
    t.take k <+: untokenize (collapse false (tokenize t)) := by
  rcases collapse_eq_or_repeated (tokenize t) with hsame | ⟨q₁, q₂, r, hq, hr⟩
  · rw [hsame, untokenize_tokenize]
    exact List.take_prefix k t
  · have htext : t = untokenize q₁ ++ dollarStar ++ dollarStar ++ untokenize q₂ := by
      rw [← untokenize_tokenize t, hq, untokenize_append]
      simp [untokenize, dollarStar]
    have hlen := h _ _ htext
    have hout : untokenize (q₁ ++ none :: r) = untokenize q₁ ++ dollarStar ++ untokenize r := by
      rw [untokenize_append]
      simp [untokenize, dollarStar]
    rw [hr, hout]
    refine take_prefix_of_le (a := untokenize q₁ ++ dollarStar) ?_ (prefix_append _ _) ?_
    · exact ⟨dollarStar ++ untokenize q₂, by rw [← append_assoc, ← htext]⟩
    · rw [length_append]
      exact hlen

theorem prefix_readText (s behind : Bytes) : s <+: readText s behind := by
  rw [readText]
  split
  · exact prefix_append s _
  · exact prefix_rfl

theorem Kept.prefix_singleText {s behind : Bytes} {k : ℕ} (h : Kept (readText s behind) k)
    (hk : k ≤ s.length) : s.take k <+: singleText (s ++ behind) s.length := by
  have hsame : s.take k = (readText s behind).take k := by
    obtain ⟨u, hu⟩ := prefix_readText s behind
    rw [← hu, take_append_of_le_length hk]
  rw [hsame, singleText_append]
  exact take_prefix_collapse h.repeated

/-! ### What is left when the chunks are rewritten -/

variable {X P : List Bytes}

theorem leadChunks_prefix (P : List Bytes) (hX : X ≠ []) :
    leadChunks P <+: joinChunks (P ++ X) := by
  obtain ⟨c, X, rfl⟩ := exists_cons_of_ne_nil hX
  rw [joinChunks_append_cons]
  exact prefix_append _ _

theorem prefix_joinChunks_cons (c : Bytes) (X : List Bytes) : c <+: joinChunks (c :: X) := by
  rcases eq_or_ne X [] with rfl | hX
  · exact ⟨[], by rw [append_nil, joinChunks_singleton]⟩
  · rw [joinChunks_cons c hX]
    exact prefix_append c _

theorem prefix_joinChunks_delimiter (c : Bytes) (hX : X ≠ []) :
    c ++ [delimiter] <+: joinChunks (c :: X) := by
  rw [joinChunks_cons c hX]
  exact (prefix_append_right_inj c).mpr (prefix_append [delimiter] _)

theorem leadChunks_append_prefix {a : Bytes} {c : Bytes} (h : a <+: joinChunks (c :: X))
    (P : List Bytes) : leadChunks P ++ a <+: joinChunks (P ++ c :: X) := by
  rw [joinChunks_append_cons]
  exact (prefix_append_right_inj _).mpr h

theorem starsOf_eq_nil_iff {S : List Bytes} : starsOf S = [] ↔ ∀ d ∈ S, d = doubleStar := by
  simp [starsOf]

/-- What is written for a `**` and the chunks behind it begins as they do. -/
theorem rewritten_prefix {out : List Bytes} (hX : X ≠ []) (hred : ∀ c ∈ X, Reduced (tokenize c))
    (hout : rewriteChunks true X = some out) :
    ∃ a, a.length = wildKept X ∧ leadChunks P ++ a <+: joinChunks (P ++ doubleStar :: X) ∧
      leadChunks P ++ a <+: joinChunks (P ++ out) := by
  have hrewritable : Rewritable X := by
    by_contra hnot
    rw [(rewriteChunks_eq hred true).2 hnot] at hout
    cases hout
  rw [(rewriteChunks_eq hred true).1 hrewritable, Bool.true_or, Option.some.injEq] at hout
  have hpending : pendingChunks true = [doubleStar] := rfl
  rw [wildKept]
  by_cases hstars : ∀ d ∈ leadWild X, d = doubleStar
  · have hnone : ¬ ∃ d ∈ leadWild X, d ≠ doubleStar := by
      rintro ⟨d, hd, hne⟩
      exact hne (hstars d hd)
    rw [if_neg hnone]
    rw [starsOf_eq_nil_iff.mpr hstars, nil_append, hpending, singleton_append] at hout
    subst hout
    split
    · exact ⟨doubleStar, rfl, leadChunks_append_prefix (prefix_joinChunks_cons _ _) P,
        leadChunks_append_prefix (prefix_joinChunks_cons _ _) P⟩
    · next hbehind =>
      have hmap : (behindWild X).map starred ≠ [] := by simpa using hbehind
      exact ⟨doubleStar ++ [delimiter], rfl,
        leadChunks_append_prefix (prefix_joinChunks_delimiter _ hX) P,
        leadChunks_append_prefix (prefix_joinChunks_delimiter _ hmap) P⟩
  · have hsome : ∃ d ∈ leadWild X, d ≠ doubleStar := by simpa using hstars
    have hne : starsOf (leadWild X) ≠ [] := fun hnil ↦ hstars (starsOf_eq_nil_iff.mp hnil)
    obtain ⟨d, S, hS⟩ := exists_cons_of_ne_nil hne
    have hd : d = starChunk := by
      have hmem : d ∈ starsOf (leadWild X) := by rw [hS]; exact mem_cons_self
      obtain ⟨-, -, rfl⟩ := mem_map.mp hmem
      rfl
    rw [if_pos hsome]
    rw [hS, hd, cons_append] at hout
    subst hout
    have hfirst : starChunk <+: doubleStar := ⟨starChunk, rfl⟩
    exact ⟨starChunk, rfl, leadChunks_append_prefix (hfirst.trans (prefix_joinChunks_cons _ _)) P,
      leadChunks_append_prefix (prefix_joinChunks_cons _ _) P⟩

/-! ### What is left -/

section

variable {s behind m : Bytes} {len k : ℕ}

theorem take_of_ends {out : List Bytes} (h : CanonizeEnds (s ++ behind) s.length P (some out))
    (hcall : keyexprCanonize (s ++ behind) s.length = .returned .success m len) :
    m.take len = joinChunks (P ++ out) := by
  obtain ⟨m', hcall', hreads, hlen, hle, -⟩ := h
  rw [hcall'] at hcall
  cases hcall
  refine take_of_reads hreads (hle.trans ?_)
  rw [hlen]
  exact length_singleText_le (length_le_append s behind)

theorem some_of_ends {o : Option (List Bytes)} (h : CanonizeEnds (s ++ behind) s.length P o)
    (hcall : keyexprCanonize (s ++ behind) s.length = .returned .success m len) :
    ∃ out, o = some out := by
  cases o with
  | some out => exact ⟨out, rfl⟩
  | none =>
    obtain ⟨status, m', hcall', hstatus⟩ := h
    rw [hcall'] at hcall
    cases hcall
    exact absurd rfl hstatus

/-- What is in front of all that is rewritten stays. -/
theorem keyexprCanonize_keeps (hkept : Kept (readText s behind) k) (hk : k ≤ s.length)
    (hcall : keyexprCanonize (s ++ behind) s.length = .returned .success m len) :
    s.take k <+: m.take len := by
  have hle := length_le_append s behind
  have hsingle := hkept.prefix_singleText hk
  have htext := singleText_eq_joinChunks s behind
  have hchunks := chunks_singleText s behind
  have hred : ∀ c ∈ collapsed (readText s behind), Reduced (tokenize c) :=
    fun c hc ↦ reduced_of_mem_collapsed hc
  -- what is kept of the string is a prefix of the text that is scanned, and no longer than that
  have hshort : ∀ {a : Bytes}, a <+: singleText (s ++ behind) s.length → a <+: m.take len →
      k ≤ a.length → s.take k <+: m.take len := by
    intro a htext hout hka
    have htake : s.take k <+: a :=
      prefix_of_prefix_length_le hsingle htext ((length_take_le k s).trans hka)
    exact htake.trans hout
  rcases passed_or_stopsAt (chunks (singleText (s ++ behind) s.length)) with
    ⟨big, hpass⟩ | ⟨P, big, c, X, status, hstop⟩
  · obtain ⟨m', hcall', hreads, hlen, -⟩ := keyexprCanonize_passed hle hpass
    rw [hcall'] at hcall
    cases hcall
    rw [take_of_reads hreads (by rw [hlen]; exact length_singleText_le hle)]
    exact hsingle
  · rcases chunkPass_done_cases hstop.stop with
      ⟨hmalformed, -⟩ | ⟨rfl, rfl⟩ | ⟨rfl, hcases⟩
    · obtain ⟨m', hcall'⟩ := keyexprCanonize_malformed hle hstop hmalformed
      rw [hcall'] at hcall
      cases hcall
      cases hmalformed
    · have hends := keyexprCanonize_lone hle hstop
      obtain ⟨out, hout⟩ := some_of_ends hends hcall
      rw [hout] at hends
      obtain ⟨rest, -, rfl⟩ := Option.map_eq_some_iff.mp hout
      have hsplit := hstop.split
      rw [hchunks] at hsplit
      refine hshort (a := leadChunks P) ?_ ?_ (hkept.lone P X hsplit)
      · rw [htext, hsplit]
        exact leadChunks_prefix P (cons_ne_nil _ _)
      · rw [take_of_ends hends hcall]
        exact leadChunks_prefix P (cons_ne_nil _ _)
    · have hstatus : status = .singleStarAfterDoubleStar ∨ status = .doubleStarAfterDoubleStar :=
        hcases.imp (·.2) (·.2)
      obtain ⟨P, d, rfl, hd⟩ := exists_last_of_passState hstop.passed
      rcases eq_or_ne d doubleStar with rfl | hne
      · have hends := keyexprCanonize_wild hle hstop hstatus
        obtain ⟨out, hout⟩ := some_of_ends hends hcall
        rw [hout] at hends
        have hsplit := hstop.split
        rw [hchunks, append_assoc, singleton_append] at hsplit
        have hredX : ∀ e ∈ c :: X, Reduced (tokenize e) := fun e he ↦ hred e (by
          rw [hsplit]
          exact mem_append_right _ (mem_cons_of_mem _ he))
        obtain ⟨a, ha, hin, hwritten⟩ := rewritten_prefix (P := P) (cons_ne_nil c X) hredX hout
        have hle' := hkept.wild P c X hsplit (hcases.imp (·.1) (·.1))
        refine hshort (a := leadChunks P ++ a) ?_ ?_ (by rw [length_append, ha]; exact hle')
        · rw [htext, hsplit]
          exact hin
        · rw [take_of_ends hends hcall]
          exact hwritten
      · obtain ⟨hP, hone⟩ := hd.resolve_left hne
        rw [keyexprCanonize_aborted hle hstop hP hone hstatus] at hcall
        cases hcall

end

end ZenohPico.Keyexpr
