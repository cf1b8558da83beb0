import ZenohPico.Keyexpr.Termination

/-!
What the answers of `_z_keyexpr_intersects` and `_z_keyexpr_includes` say about the keys the two key
expressions stand for. Both callers first compare the strings with `strncmp`, which stops at a
terminator inside them; apart from that shortcut, an answer of the first says whether there is a
common key, and a positive answer of the second that every key of the right side is one of the left.
-/

namespace ZenohPico.Keyexpr

open Foundations List Option

/-! ### Keys and patterns -/

/-- A concrete key that both key expressions stand for. -/
def CommonKey (l r : Bytes) : Prop :=
  ∃ key, ConcreteKey key ∧ KeyMatches l key ∧ KeyMatches r key

/-- Every concrete key the second key expression stands for is one the first stands for. -/
def IncludesKeys (l r : Bytes) : Prop :=
  ∀ key, ConcreteKey key → KeyMatches r key → KeyMatches l key

variable {s : Bytes}

/-- Over the chunks of a concrete key, matching and matching by concrete chunks are the same. -/
theorem keyMatches_iff {key : List Bytes} (hkey : ∀ x ∈ key, ConcreteChunk x) :
    KeyMatches s key ↔ Matches ConcreteMatch PlainChunk (patternOf (chunks s)) key := by
  constructor
  · exact fun h ↦ Matches.mono h (fun _ x hx hm ↦ ⟨hkey x hx, hm⟩) fun x hx hp ↦ ⟨hkey x hx, hp⟩
  · exact fun h ↦ Matches.mono h (fun _ _ _ hm ↦ hm.2) fun _ _ hp ↦ hp.2

variable {P : List (Option Bytes)}

theorem concrete_of_matches {key : List Bytes} (h : Matches ConcreteMatch PlainChunk P key) :
    ∀ x ∈ key, ConcreteChunk x := by
  induction h with
  | nil => simp
  | letter hx _ ih =>
    intro y hy
    rcases mem_cons.mp hy with rfl | hy
    · exact hx.1
    · exact ih y hy
  | star hu _ ih =>
    intro y hy
    rcases mem_append.mp hy with hy | hy
    · exact (hu y hy).1
    · exact ih y hy

theorem eq_star_of_matches_nil (hne : P ≠ []) (hred : Reduced P)
    (h : Matches ConcreteMatch PlainChunk P []) : P = [none] := by
  match P with
  | [] => exact absurd rfl hne
  | some c :: P =>
    obtain ⟨x, w, hnil, -⟩ := matches_letter_iff.mp h
    simp at hnil
  | [none] => rfl
  | none :: none :: P => simp [Reduced] at hred
  | none :: some c :: P =>
    obtain ⟨u, w, hnil, -, hw⟩ := matches_star_iff.mp h
    obtain ⟨x, w', rfl, -⟩ := matches_letter_iff.mp hw
    simp at hnil

theorem plainChunk_letter : PlainChunk [97] := ⟨by decide, by decide⟩

/-- Two canonical key expressions have a common key when their patterns overlap: a pair of patterns
that only share the empty word is a pair of `**`. -/
theorem commonKey_iff {l r : Bytes} (hl : Canonical l) (hr : Canonical r) : CommonKey l r ↔
      Overlap ConcreteMatch PlainChunk (patternOf (chunks l)) (patternOf (chunks r)) := by
  constructor
  · rintro ⟨key, hkey, hlkey, hrkey⟩
    exact ⟨key, (keyMatches_iff hkey.2).mp hlkey, (keyMatches_iff hkey.2).mp hrkey⟩
  · rintro ⟨key, hlkey, hrkey⟩
    rcases eq_or_ne key [] with rfl | hne
    · have hstar : ∀ x ∈ [([97] : Bytes)], ConcreteChunk x := by simp [plainChunk_letter.1]
      have hmatch : Matches ConcreteMatch PlainChunk [none] [([97] : Bytes)] :=
        matches_singleton_star_iff.mpr (by simp [plainChunk_letter])
      refine ⟨[[97]], ⟨by simp, hstar⟩, ?_, ?_⟩
      · rw [keyMatches_iff hstar,
          eq_star_of_matches_nil (patternOf_chunks_ne_nil l) hl.reduced hlkey]
        exact hmatch
      · rw [keyMatches_iff hstar,
          eq_star_of_matches_nil (patternOf_chunks_ne_nil r) hr.reduced hrkey]
        exact hmatch
    · have hkey := concrete_of_matches hlkey
      exact ⟨key, ⟨hne, hkey⟩, (keyMatches_iff hkey).mpr hlkey, (keyMatches_iff hkey).mpr hrkey⟩

theorem includesKeys_of_covers {l r : Bytes}
    (h : Covers ConcreteMatch PlainChunk (patternOf (chunks l)) (patternOf (chunks r))) :
    IncludesKeys l r := by
  intro key hkey hr
  exact (keyMatches_iff hkey.2).mpr (h key ((keyMatches_iff hkey.2).mp hr))

/-! ### Canonical key expressions with `@` at the start of chunks only -/

theorem Canonical.alignedLetters (h : Canonical s) (hv : VerbatimAtStart s) :
    AllLetters AlignedLetter (patternOf (chunks s)) :=
  fun c hc ↦ ⟨h.keyLetters c hc, hv c (mem_chunks_of_mem_patternOf hc).1⟩

theorem VerbatimAtStart.verbatimFirst (hv : VerbatimAtStart s) :
    VerbatimFirst (patternOf (chunks s)) := by
  intro c hc hmem
  have htail := hv c (mem_chunks_of_mem_patternOf hc).1
  cases c with
  | nil => simp at hmem
  | cons b c =>
    rcases mem_cons.mp hmem with rfl | hmem
    · rfl
    · exact absurd hmem htail

theorem VerbatimAtStart.cutBetweenChunks {l r : Bytes} (hl : VerbatimAtStart l)
    (hr : VerbatimAtStart r) (op : MatchOp) : CutBetweenChunks op l r :=
  Or.inr (CutsWhole.middlesWhole op (Or.inr (Or.inr ⟨hl.verbatimFirst, hr.verbatimFirst⟩)))

/-- A pattern of letters that each stand for something stands for something. -/
theorem exists_matches (hP : AllLetters AlignedLetter P) :
    ∃ key, Matches ConcreteMatch PlainChunk P key := by
  induction P with
  | nil => exact ⟨[], .nil⟩
  | cons a P ih =>
    obtain ⟨key, hkey⟩ := ih (hP.of_subset (subset_cons_self _ _))
    cases a with
    | none => exact ⟨[] ++ key, .star (by simp) hkey⟩
    | some c =>
      obtain ⟨x, hx⟩ := exists_concreteMatch (hP c (by simp))
      exact ⟨x :: key, .letter hx hkey⟩

theorem commonKey_self (hs : Canonical s) (hv : VerbatimAtStart s) : CommonKey s s := by
  obtain ⟨key, hkey⟩ := exists_matches (hs.alignedLetters hv)
  exact (commonKey_iff hs hs).mpr ⟨key, hkey, hkey⟩

theorem mem_joinChunks {cs : List Bytes} {c : Bytes} {b : UInt8} (hc : c ∈ cs) (hb : b ∈ c) :
    b ∈ joinChunks cs := by
  induction cs with
  | nil => simp at hc
  | cons d cs ih =>
    rcases eq_or_ne cs [] with rfl | hcs
    · rw [joinChunks_singleton, ← mem_singleton.mp hc]
      exact hb
    · rw [joinChunks_cons d hcs]
      rcases mem_cons.mp hc with rfl | hc
      · exact mem_append_left _ hb
      · exact mem_append_right _ (mem_cons_of_mem _ (ih hc))

theorem mem_of_mem_chunks {c : Bytes} {b : UInt8} (hc : c ∈ chunks s) (hb : b ∈ c) : b ∈ s := by
  rw [← joinChunks_chunks s]
  exact mem_joinChunks hc hb

theorem noWildcard_of_star_notMem (hs : star ∉ s) : NoWildcard (patternOf (chunks s)) := by
  intro a ha
  rw [patternOf, List.mem_map] at ha
  obtain ⟨c, hc, rfl⟩ := ha
  have hstar : star ∉ c := fun h ↦ hs (mem_of_mem_chunks hc h)
  have hds : c ≠ doubleStar := by
    rintro rfl
    exact hstar (by decide)
  exact ⟨c, if_neg hds, hstar⟩

/-! ### The answers -/

section Answers

variable {l r : Bytes}

theorem keyexprMatch_of_same {op : MatchOp} (h : sameKeyexpr l r = true) (n : ℕ) :
    keyexprMatch op l r n = some true := by
  rw [keyexprMatch, if_pos h]

theorem keyVerbatim_of_answer {op : MatchOp} (hl : Canonical l) (hr : Canonical r)
    (hvl : VerbatimAtStart l) (hvr : VerbatimAtStart r) (hsame : ¬ sameKeyexpr l r = true) {n : ℕ}
    {answer : Bool} (h : keyexprMatch op l r n = some answer) :
    keyVerbatim op (patternOf (chunks l)) (patternOf (chunks r)) = some answer := by
  have hcomputes := keyexprMatch_computes hl hr (hvl.cutBetweenChunks hvr op)
  rw [if_neg hsame] at hcomputes
  exact hcomputes.eq_of_eq_some h

/-- The answers of `_z_keyexpr_intersects` tell whether there is a common key, exactly when the
comparison of the strings does not take two of them for the same that have none. -/
theorem keyexprIntersects_iff_commonKey (hl : Canonical l) (hr : Canonical r)
    (hvl : VerbatimAtStart l) (hvr : VerbatimAtStart r) :
    (∀ n answer, keyexprIntersects l r n = some answer → (answer = true ↔ CommonKey l r)) ↔
      (sameKeyexpr l r = true → l = r ∨ CommonKey l r) := by
  constructor
  · intro h hsame
    exact Or.inr ((h 0 true (keyexprMatch_of_same hsame 0)).mp rfl)
  · intro hcond n answer hanswer
    by_cases hsame : sameKeyexpr l r = true
    · rw [keyexprIntersects, keyexprMatch_of_same hsame] at hanswer
      rw [← some.inj hanswer]
      refine iff_of_true rfl ?_
      rcases hcond hsame with rfl | hcommon
      · exact commonKey_self hl hvl
      · exact hcommon
    · have hkeys := keyVerbatim_of_answer hl hr hvl hvr hsame hanswer
      rw [commonKey_iff hl hr]
      exact keyVerbatim_intersects (hl.alignedLetters hvl) (hr.alignedLetters hvr) hl.reduced
        hr.reduced hkeys

/-- `a/**` and `a/b` have a common key, as `_z_keyexpr_intersects` says. -/
theorem keyexprIntersects_iff_commonKey_sample :
    CommonKey (joinChunks [[97], doubleStar]) (joinChunks [[97], [98]]) := by
  have h := keyexprIntersects_iff_commonKey (l := joinChunks [[97], doubleStar])
    (r := joinChunks [[97], [98]]) (by decide) (by decide) (by decide) (by decide)
  exact (h.mpr (fun hsame ↦ absurd hsame (by decide)) 12 true (by decide +kernel)).mp rfl

theorem not_commonKey_terminated : ¬ CommonKey [97, 0, 98] [97, 0, 99] := by
  have hl : Canonical [97, 0, 98] := by decide
  have hr : Canonical [97, 0, 99] := by decide
  have hanswer : keyVerbatim .intersects (patternOf (chunks [97, 0, 98]))
      (patternOf (chunks [97, 0, 99])) = some false := by decide
  rw [commonKey_iff hl hr, ← keyVerbatim_intersects (hl.alignedLetters (by decide))
    (hr.alignedLetters (by decide)) hl.reduced hr.reduced hanswer]
  simp

/-- Two key expressions that differ behind a terminator are said to intersect. -/
theorem keyexprIntersects_terminated :
    Canonical [97, 0, 98] ∧ Canonical [97, 0, 99] ∧ VerbatimAtStart [97, 0, 98] ∧
      VerbatimAtStart [97, 0, 99] ∧ keyexprIntersects [97, 0, 98] [97, 0, 99] 0 = some true ∧
      ¬ CommonKey [97, 0, 98] [97, 0, 99] :=
  ⟨by decide, by decide, by decide, by decide, by decide, not_commonKey_terminated⟩

/-- A positive answer of `_z_keyexpr_includes` is right, and against a right side without wildcards
it answers as `_z_keyexpr_intersects`, exactly when the comparison of the strings does not take two
of them for the same where the first does not include the second. -/
theorem keyexprIncludes_sound_iff (hl : Canonical l) (hr : Canonical r)
    (hvl : VerbatimAtStart l) (hvr : VerbatimAtStart r) :
    ((∀ n, keyexprIncludes l r n = some true → IncludesKeys l r) ∧
      (star ∉ r → ∀ n m included met, keyexprIncludes l r n = some included →
        keyexprIntersects l r m = some met → included = met)) ↔
      (sameKeyexpr l r = true → l = r ∨ IncludesKeys l r) := by
  constructor
  · intro h hsame
    exact Or.inr (h.1 0 (keyexprMatch_of_same hsame 0))
  · intro hcond
    by_cases hsame : sameKeyexpr l r = true
    · refine ⟨fun n _ ↦ ?_, fun _ n m included met hincluded hmet ↦ ?_⟩
      · rcases hcond hsame with rfl | hincludes
        · exact fun key _ hkey ↦ hkey
        · exact hincludes
      · rw [keyexprIncludes, keyexprMatch_of_same hsame] at hincluded
        rw [keyexprIntersects, keyexprMatch_of_same hsame] at hmet
        rw [← some.inj hincluded, ← some.inj hmet]
    · refine ⟨fun n h ↦ ?_, fun hstar n m included met hincluded hmet ↦ ?_⟩
      · have hkeys := keyVerbatim_of_answer hl hr hvl hvr hsame h
        exact includesKeys_of_covers (keyVerbatim_includes (hl.alignedLetters hvl)
          (hr.alignedLetters hvr) hl.reduced hr.reduced hkeys)
      · have hincluded := keyVerbatim_of_answer hl hr hvl hvr hsame hincluded
        have hmet := keyVerbatim_of_answer hl hr hvl hvr hsame hmet
        rw [keyVerbatim_noWildcard (noWildcard_of_star_notMem hstar), hincluded] at hmet
        exact some.inj hmet

/-- `a/**` includes `a/b`, as `_z_keyexpr_includes` says. -/
theorem keyexprIncludes_sound_sample :
    IncludesKeys (joinChunks [[97], doubleStar]) (joinChunks [[97], [98]]) := by
  have h := keyexprIncludes_sound_iff (l := joinChunks [[97], doubleStar])
    (r := joinChunks [[97], [98]]) (by decide) (by decide) (by decide) (by decide)
  exact (h.mpr fun hsame ↦ absurd hsame (by decide)).1 12 (by decide +kernel)

/-- Two key expressions that differ behind a terminator are said to include one another. -/
theorem keyexprIncludes_terminated :
    Canonical [97, 0, 98] ∧ Canonical [97, 0, 99] ∧ VerbatimAtStart [97, 0, 98] ∧
      VerbatimAtStart [97, 0, 99] ∧ keyexprIncludes [97, 0, 98] [97, 0, 99] 0 = some true ∧
      ¬ IncludesKeys [97, 0, 98] [97, 0, 99] := by
  refine ⟨by decide, by decide, by decide, by decide, by decide, fun h ↦ ?_⟩
  have hkey : ConcreteKey [[97, 0, 99]] := ⟨by simp, by decide⟩
  have hr : KeyMatches [97, 0, 99] [[97, 0, 99]] :=
    .letter ⟨by decide, .letter rfl (.letter rfl (.letter rfl .nil))⟩ .nil
  exact not_commonKey_terminated ⟨_, hkey, h _ hkey hr, hr⟩

end Answers

end ZenohPico.Keyexpr
