import ZenohPico.Keyexpr.ChunkMeaning
import ZenohPico.Keyexpr.KeyRefinement

/-!
What the key expression matchers say about the concrete keys two key expressions stand for. Whenever
the matcher on patterns answers, its answer as `intersects` is whether the two patterns overlap, and
a yes as `includes` means that the left pattern covers the right one.
-/

namespace ZenohPico.Keyexpr

open Foundations List Option

/-- A concrete chunk a `**` may take. -/
def PlainChunk (x : Bytes) : Prop := ConcreteChunk x ∧ ¬ StartsVerbatim x

/-- A letter without `@`. -/
def PlainLetter (c : Bytes) : Prop := AlignedLetter c ∧ verbatim ∉ c

variable {c d : Bytes} {answer : Bool}

theorem not_startsVerbatim_of_notMem (h : verbatim ∉ c) : ¬ StartsVerbatim c := by
  cases c with
  | nil => simp [StartsVerbatim]
  | cons a c =>
    intro hverb
    obtain rfl : a = verbatim := by simpa [StartsVerbatim] using hverb
    exact h mem_cons_self

theorem startsVerbatim_of_mem (hc : AlignedLetter c) (h : verbatim ∈ c) : StartsVerbatim c := by
  cases c with
  | nil => simp at h
  | cons a c =>
    rcases mem_cons.mp h with rfl | h
    · rfl
    · exact absurd h hc.2

variable {P Q : List (Option Bytes)}

theorem plainLetters_of_plain (hP : AllLetters PlainLetter P) :
    PlainLetters ConcreteMatch PlainChunk P := by
  intro c hc x hx
  exact ⟨hx.1, mt hx.startsVerbatim_iff.mpr (not_startsVerbatim_of_notMem (hP c hc).2)⟩

theorem liveLetters_of_aligned (hP : AllLetters AlignedLetter P) : LiveLetters ConcreteMatch P :=
  fun c hc ↦ exists_concreteMatch (hP c hc)

theorem aligned_of_plain (hP : AllLetters PlainLetter P) : AllLetters AlignedLetter P :=
  fun c hc ↦ (hP c hc).1

theorem plain_of_clean (hP : AllLetters AlignedLetter P) (hclean : clean P = true) :
    AllLetters PlainLetter P := by
  rw [clean_iff] at hclean
  exact fun c hc ↦ ⟨hP c hc, hclean (some c) hc⟩

theorem clean_of_plain (hP : AllLetters PlainLetter P) : clean P = true := by
  rw [clean_iff]
  rintro (_ | c) hc
  · simp [entryBytes, doubleStar, verbatim, star]
  · exact (hP c hc).2

/-! ### Between two `**` -/

theorem mem_of_mem_segments {α : Type*} {p : List (Option α)} {seg : List α} {a : α}
    (hseg : seg ∈ segments p) (ha : a ∈ seg) : some a ∈ p := by
  induction hlen : p.length using Nat.strong_induction_on generalizing p with
  | _ n ih =>
    rcases segments_cases p with ⟨seg', rfl, hsegs⟩ | ⟨seg', p', rfl, hsegs⟩
    · rw [hsegs, mem_singleton] at hseg
      subst hseg
      simpa using ha
    · rw [hsegs] at hseg
      rcases mem_cons.mp hseg with rfl | hseg
      · simp [ha]
      · have := ih p'.length (by rw [← hlen]; simp; omega) hseg rfl
        simp [this]

theorem fwdEntry_iff_onLetter {entry : Option Bytes} (hc : AlignedLetter c)
    (hentry : ∀ d, entry = some d → AlignedLetter d) :
    fwdEntry .intersects c entry = true ↔ OnLetter (LettersMeet ConcreteMatch) c entry := by
  cases entry with
  | none => simp [fwdEntry, OnLetter]
  | some d =>
    rw [fwdEntry, chunkFwd_intersects_iff hc (hentry d rfl)]
    constructor
    · exact fun h ↦ ⟨d, rfl, h⟩
    · rintro ⟨_, h, hmeet⟩
      rwa [some.inj h]

/-- The segments of a middle, searched with the forward chunk matcher. -/
theorem finds_fwdEntry_iff {p : List (Option Bytes)} (hp : AllLetters AlignedLetter p)
    (hQ : AllLetters AlignedLetter Q) :
    Finds (fun c entry ↦ fwdEntry .intersects c entry = true) (segments p) Q ↔
      Finds (OnLetter (LettersMeet ConcreteMatch)) (segments p) Q := by
  have hiff : ∀ seg ∈ segments p, ∀ c ∈ seg, ∀ entry ∈ Q, fwdEntry .intersects c entry = true ↔
      OnLetter (LettersMeet ConcreteMatch) c entry := by
    intro seg hseg c hc entry hentry
    refine fwdEntry_iff_onLetter (hp c (mem_of_mem_segments hseg hc)) ?_
    rintro d rfl
    exact hQ d hentry
  constructor
  · exact Finds.imp_mem fun seg hseg c hc entry hentry ↦ (hiff seg hseg c hc entry hentry).mp
  · exact Finds.imp_mem fun seg hseg c hc entry hentry ↦ (hiff seg hseg c hc entry hentry).mpr

/-- The search of `_z_keyexpr_special`, when it comes to an end. -/
theorem keySpecial_eq_some {op : MatchOp} {p : List (Option Bytes)}
    (h : keySpecial op p Q = some answer) : op.typeIntersects = true ∧ none ∈ Q ∧ answer = true ∨
      ¬ (op.typeIntersects = true ∧ none ∈ Q) ∧
        (answer = true ↔ Finds (fun c entry ↦ fwdEntry op c entry = true) (segments p) Q) := by
  rw [keySpecial] at h
  split_ifs at h with hstar hmiss hone
  · rw [Bool.and_eq_true, any_isNone_iff] at hstar
    exact Or.inl ⟨hstar.1, hstar.2, (some.inj h).symm⟩
  · rw [Bool.and_eq_true, any_isNone_iff] at hstar
    refine Or.inr ⟨hstar, ?_⟩
    obtain ⟨seg, segs, hsegs⟩ := exists_cons_of_ne_nil (segments_ne_nil p)
    rw [hsegs, headI_cons, isNone_iff_eq_none] at hmiss
    rw [← searchSegments_iff, hsegs, searchSegments, hmiss, ← some.inj h]
  · rw [Bool.and_eq_true, any_isNone_iff] at hstar
    refine Or.inr ⟨hstar, ?_⟩
    obtain ⟨seg, segs, hsegs⟩ := exists_cons_of_ne_nil (segments_ne_nil p)
    rw [hsegs, List.tail_cons, List.isEmpty_iff] at hone
    subst hone
    rw [hsegs, headI_cons, isNone_iff_eq_none] at hmiss
    obtain ⟨rest, hrest⟩ := ne_none_iff_exists'.mp hmiss
    rw [← searchSegments_iff, hsegs, searchSegments, hrest, ← some.inj h]
    simp [searchSegments]

/-- Between two `**`, without verbatim chunks, an answer of `intersects` is right. -/
theorem decidesOverlap_plain :
    DecidesOverlap ConcreteMatch PlainChunk PlainLetter (chunkBwd .intersects) clean
      (keyOnStar .intersects) where
  back_iff c d hc hd := chunkBwd_intersects_iff hc.1 hd.1
  clean_iff Q hQ _ := iff_of_true (clean_of_plain hQ)
    (overlap_star_of_plain (plainLetters_of_plain hQ) (liveLetters_of_aligned (aligned_of_plain hQ)))
  onStar_iff P Q answer hP hQ _ _ _ _ hend h := by
    have hliveP := liveLetters_of_aligned (aligned_of_plain hP)
    have hliveQ := liveLetters_of_aligned (aligned_of_plain hQ)
    rw [keyOnStar] at h
    by_cases hendP : EndsInStar P
    · rw [if_pos (endsInStar_iff.mpr hendP)] at h
      obtain ⟨p, rfl⟩ := hendP
      rw [dropLast_concat] at h
      have hp : AllLetters PlainLetter p := hP.of_subset (subset_append_left _ _)
      rcases keySpecial_eq_some h with ⟨-, hnone, rfl⟩ | ⟨hnot, hiff⟩
      · refine iff_of_true rfl ?_
        obtain ⟨Q₁, Q₂, rfl⟩ := append_of_mem hnone
        exact overlap_star_both_ends (plainLetters_of_plain hp)
          (liveLetters_of_aligned (aligned_of_plain hp)) (plainLetters_of_plain hQ) hliveQ
      · have hnone : none ∉ Q := fun hmem ↦ hnot ⟨rfl, hmem⟩
        rw [hiff, finds_fwdEntry_iff (aligned_of_plain hp) (aligned_of_plain hQ),
          ← starred_segments, overlap_starred_iff hnone (plainLetters_of_plain hQ) hliveQ]
    · rw [if_neg (mt endsInStar_iff.mp hendP), some.injEq] at h
      obtain ⟨q, rfl⟩ := hend.resolve_left hendP
      refine iff_of_true h.symm (overlap_star_front_back (plainLetters_of_plain hP) hliveP ?_ ?_)
      · exact (plainLetters_of_plain hQ).of_subset (subset_append_left _ _)
      · exact hliveQ.of_subset (subset_append_left _ _)

theorem keyPlain_intersects (hP : AllLetters PlainLetter P) (hQ : AllLetters PlainLetter Q)
    (hrp : Reduced P) (hrq : Reduced Q) (h : keyPlain .intersects P Q = some answer) :
    answer = true ↔ Overlap ConcreteMatch PlainChunk P Q :=
  stripFront_overlap decidesOverlap_plain (fun _ _ hc hd ↦ chunkFwd_intersects_iff hc.1 hd.1)
    hP hQ hrp hrq h

/-! ### Cutting at verbatim chunks -/

theorem not_plainChunk_of_verbatim {v x : Bytes} (hv : StartsVerbatim v) (hx : ConcreteMatch v x) :
    ¬ PlainChunk x :=
  fun h ↦ h.2 (hx.startsVerbatim_iff.mp hv)

theorem keyLeftovers_intersects (hrp : Reduced P) (hrq : Reduced Q) (h : P = [] ∨ Q = []) :
    keyLeftovers .intersects P Q = true ↔ Overlap ConcreteMatch PlainChunk P Q := by
  rw [keyLeftovers]
  rcases h with rfl | rfl
  · rw [overlap_comm, overlap_nil_iff hrq]
    simp [MatchOp.typeIntersects, isLoneStar_iff]
  · rw [overlap_nil_iff hrp]
    simp [isLoneStar_iff]

theorem allLetters_behind {G : Bytes → Prop} {A B : List (Option Bytes)} {v : Bytes}
    (h : AllLetters G (A ++ some v :: B)) : AllLetters G B :=
  fun c hc ↦ h c (by simp [hc])

theorem keyParts_intersects (hP : AllLetters AlignedLetter P) (hQ : AllLetters AlignedLetter Q)
    (hrp : Reduced P) (hrq : Reduced Q) (h : keyParts .intersects P Q = some answer) :
    answer = true ↔ Overlap ConcreteMatch PlainChunk P Q := by
  induction hlen : P.length using Nat.strong_induction_on generalizing P Q with
  | _ n ih =>
    rw [keyParts] at h
    by_cases hempty : (P.isEmpty || Q.isEmpty) = true
    · rw [if_pos hempty, some.injEq] at h
      simp only [Bool.or_eq_true, List.isEmpty_iff] at hempty
      rw [← h]
      exact keyLeftovers_intersects hrp hrq hempty
    rw [if_neg hempty] at h
    split at h
    case h_1 hcutP hcutQ =>
      rw [cutVerbatim_eq_none_iff] at hcutP hcutQ
      exact keyPlain_intersects (plain_of_clean hP hcutP) (plain_of_clean hQ hcutQ) hrp hrq h
    case h_2 A v B C u D hcutP hcutQ =>
      obtain ⟨rfl, hA, hv⟩ := cutVerbatim_eq_some hcutP
      obtain ⟨rfl, hC, hu⟩ := cutVerbatim_eq_some hcutQ
      have hgv : AlignedLetter v := hP v (by simp)
      have hgu : AlignedLetter u := hQ u (by simp)
      have hpA := plain_of_clean (hP.of_subset (subset_append_left _ _)) hA
      have hpC := plain_of_clean (hQ.of_subset (subset_append_left _ _)) hC
      rw [overlap_cut_iff (plainLetters_of_plain hpA)
        (fun x ↦ not_plainChunk_of_verbatim (startsVerbatim_of_mem hgv hv))
        (plainLetters_of_plain hpC)
        (fun x ↦ not_plainChunk_of_verbatim (startsVerbatim_of_mem hgu hu))]
      obtain ⟨matched, hmatched, h⟩ := bind_eq_some_iff.mp h
      rw [← keyPlain_intersects hpA hpC (reduced_of_append_left hrp) (reduced_of_append_left hrq)
        hmatched, ← chunkFwd_intersects_iff hgv hgu]
      by_cases hboth : (matched && chunkFwd .intersects v u) = true
      · rw [if_pos hboth] at h
        rw [Bool.and_eq_true] at hboth
        have hrest := ih B.length (by rw [← hlen]; simp; omega) (allLetters_behind hP)
          (allLetters_behind hQ) (reduced_of_append_right hrp).tail
          (reduced_of_append_right hrq).tail h rfl
        rw [hrest, and_iff_right hboth.1, and_iff_right hboth.2]
      · rw [if_neg hboth, some.injEq] at h
        rw [Bool.and_eq_true] at hboth
        rw [← h]
        simp only [Bool.false_eq_true, false_iff]
        exact fun hall ↦ hboth ⟨hall.1, hall.2.1⟩
    case h_3 hnone hsome =>
      rw [some.injEq] at h
      rw [← h]
      simp only [Bool.false_eq_true, false_iff]
      rcases hcutP : cutVerbatim P with _ | ⟨A, v, B⟩
      · rcases hcutQ : cutVerbatim Q with _ | ⟨C, u, D⟩
        · exact absurd hcutQ (hnone hcutP)
        · obtain ⟨rfl, hC, hu⟩ := cutVerbatim_eq_some hcutQ
          rw [overlap_comm]
          refine not_overlap_cut_plain (fun x ↦ not_plainChunk_of_verbatim
            (startsVerbatim_of_mem (hQ u (by simp)) hu)) (plainLetters_of_plain ?_)
          exact plain_of_clean hP (cutVerbatim_eq_none_iff.mp hcutP)
      · rcases hcutQ : cutVerbatim Q with _ | ⟨C, u, D⟩
        · obtain ⟨rfl, hA, hv⟩ := cutVerbatim_eq_some hcutP
          refine not_overlap_cut_plain (fun x ↦ not_plainChunk_of_verbatim
            (startsVerbatim_of_mem (hP v (by simp)) hv)) (plainLetters_of_plain ?_)
          exact plain_of_clean hQ (cutVerbatim_eq_none_iff.mp hcutQ)
        · exact (hsome A v B C u D hcutP hcutQ).elim

/-- Whenever `intersects` answers on key expressions that may hold verbatim chunks, the answer is
right. -/
theorem decidesOverlap_verbatim :
    DecidesOverlap ConcreteMatch PlainChunk AlignedLetter (chunkBwd .intersects) clean
      (fun P Q ↦ keyParts .intersects (none :: P) Q) where
  back_iff c d hc hd := chunkBwd_intersects_iff hc hd
  clean_iff Q hQ _ := by
    constructor
    · intro hclean
      exact overlap_star_of_plain (plainLetters_of_plain (plain_of_clean hQ hclean))
        (liveLetters_of_aligned hQ)
    · intro hoverlap
      by_contra hclean
      rw [← cutVerbatim_eq_none_iff] at hclean
      obtain ⟨⟨A, v, B⟩, hcut⟩ := ne_none_iff_exists'.mp hclean
      obtain ⟨rfl, -, hv⟩ := cutVerbatim_eq_some hcut
      rw [overlap_comm] at hoverlap
      refine not_overlap_cut_plain (fun x ↦ not_plainChunk_of_verbatim
        (startsVerbatim_of_mem (hQ v (by simp)) hv)) ?_ hoverlap
      exact fun a ha ↦ absurd ha (by simp)
  onStar_iff P Q answer hP hQ hrp hrq _ _ _ h :=
    keyParts_intersects (fun c hc ↦ hP c (by simpa using hc)) hQ hrp hrq h

theorem keyVerbatim_intersects (hP : AllLetters AlignedLetter P) (hQ : AllLetters AlignedLetter Q)
    (hrp : Reduced P) (hrq : Reduced Q) (h : keyVerbatim .intersects P Q = some answer) :
    answer = true ↔ Overlap ConcreteMatch PlainChunk P Q :=
  stripFront_overlap decidesOverlap_verbatim (fun _ _ hc hd ↦ chunkFwd_intersects_iff hc hd)
    hP hQ hrp hrq h

/-! ### Inclusion -/

theorem showsCovers_plain :
    ShowsCovers ConcreteMatch PlainChunk PlainLetter (chunkBwd .includes) clean
      (keyOnStar .includes) where
  back_covers c d hc hd := chunkBwd_includes_covers hc.1 hd.1
  clean_covers Q hQ _ := covers_star_of_plain (plainLetters_of_plain hQ)
  onStar_covers P Q hP hQ _ _ hend h := by
    rw [keyOnStar, if_pos (endsInStar_iff.mpr hend)] at h
    obtain ⟨p, rfl⟩ := hend
    rw [dropLast_concat] at h
    have hp : AllLetters PlainLetter p := hP.of_subset (subset_append_left _ _)
    rcases keySpecial_eq_some h with ⟨hop, -⟩ | ⟨-, hiff⟩
    · exact absurd hop (by simp [MatchOp.typeIntersects])
    · have hfinds := hiff.mp rfl
      rw [← starred_segments]
      refine covers_starred (plainLetters_of_plain hQ) (hfinds.imp_mem ?_)
      intro seg hseg c hc entry hentry hfwd
      cases entry with
      | none => simp [fwdEntry] at hfwd
      | some d =>
        exact ⟨d, rfl, chunkFwd_includes_covers (hp c (mem_of_mem_segments hseg hc)).1
          (hQ d hentry).1 hfwd⟩

theorem keyPlain_includes (hP : AllLetters PlainLetter P) (hQ : AllLetters PlainLetter Q)
    (hrp : Reduced P) (hrq : Reduced Q) (h : keyPlain .includes P Q = some true) :
    Covers ConcreteMatch PlainChunk P Q :=
  stripFront_covers showsCovers_plain (fun _ _ hc hd ↦ chunkFwd_includes_covers hc.1 hd.1)
    hP hQ hrp hrq h

theorem keyLeftovers_includes (h : keyLeftovers .includes P Q = true) :
    Covers ConcreteMatch PlainChunk P Q := by
  simp only [keyLeftovers, MatchOp.typeIntersects, Bool.false_and, Bool.or_false,
    Bool.and_eq_true, Bool.or_eq_true, List.isEmpty_iff, isLoneStar_iff] at h
  obtain ⟨rfl | rfl, rfl⟩ := h
  · exact covers_nil
  · exact covers_star_of_plain fun a ha ↦ absurd ha (by simp)

theorem keyParts_includes (hP : AllLetters AlignedLetter P) (hQ : AllLetters AlignedLetter Q)
    (hrp : Reduced P) (hrq : Reduced Q) (h : keyParts .includes P Q = some true) :
    Covers ConcreteMatch PlainChunk P Q := by
  induction hlen : P.length using Nat.strong_induction_on generalizing P Q with
  | _ n ih =>
    rw [keyParts] at h
    by_cases hempty : (P.isEmpty || Q.isEmpty) = true
    · rw [if_pos hempty, some.injEq] at h
      exact keyLeftovers_includes h
    rw [if_neg hempty] at h
    split at h
    case h_1 hcutP hcutQ =>
      rw [cutVerbatim_eq_none_iff] at hcutP hcutQ
      exact keyPlain_includes (plain_of_clean hP hcutP) (plain_of_clean hQ hcutQ) hrp hrq h
    case h_2 A v B C u D hcutP hcutQ =>
      obtain ⟨rfl, hA, -⟩ := cutVerbatim_eq_some hcutP
      obtain ⟨rfl, hC, -⟩ := cutVerbatim_eq_some hcutQ
      have hpA := plain_of_clean (hP.of_subset (subset_append_left _ _)) hA
      have hpC := plain_of_clean (hQ.of_subset (subset_append_left _ _)) hC
      obtain ⟨matched, hmatched, h⟩ := bind_eq_some_iff.mp h
      by_cases hboth : (matched && chunkFwd .includes v u) = true
      swap
      · rw [if_neg hboth] at h
        exact absurd h (by simp)
      rw [if_pos hboth] at h
      rw [Bool.and_eq_true] at hboth
      rw [hboth.1] at hmatched
      refine covers_append (keyPlain_includes hpA hpC (reduced_of_append_left hrp)
        (reduced_of_append_left hrq) hmatched) (covers_letter_cons
          (chunkFwd_includes_covers (hP v (by simp)) (hQ u (by simp)) hboth.2) ?_)
      exact ih B.length (by rw [← hlen]; simp; omega) (allLetters_behind hP)
        (allLetters_behind hQ) (reduced_of_append_right hrp).tail
        (reduced_of_append_right hrq).tail h rfl
    case h_3 => exact absurd h (by simp)

theorem showsCovers_verbatim :
    ShowsCovers ConcreteMatch PlainChunk AlignedLetter (chunkBwd .includes) clean
      (fun P Q ↦ keyParts .includes (none :: P) Q) where
  back_covers c d hc hd := chunkBwd_includes_covers hc hd
  clean_covers Q hQ hclean :=
    covers_star_of_plain (plainLetters_of_plain (plain_of_clean hQ hclean))
  onStar_covers P Q hP hQ hrp hrq _ h :=
    keyParts_includes (fun c hc ↦ hP c (by simpa using hc)) hQ hrp hrq h

theorem keyVerbatim_includes (hP : AllLetters AlignedLetter P) (hQ : AllLetters AlignedLetter Q)
    (hrp : Reduced P) (hrq : Reduced Q) (h : keyVerbatim .includes P Q = some true) :
    Covers ConcreteMatch PlainChunk P Q :=
  stripFront_covers showsCovers_verbatim (fun _ _ hc hd ↦ chunkFwd_includes_covers hc hd)
    hP hQ hrp hrq h

/-! ### Right sides without wildcards -/

theorem none_notMem_tokenize (hd : star ∉ d) : none ∉ tokenize d := by
  intro hmem
  obtain ⟨p, q, hpq⟩ := append_of_mem hmem
  refine hd ?_
  rw [← untokenize_tokenize d, hpq, untokenize_append, untokenize]
  simp

theorem tokenOnStar_noStar {orient : List (Option UInt8) → List (Option UInt8)}
    (hmem : ∀ p, orient p ⊆ p) {q : List (Option UInt8)} (hq : none ∉ q)
    (p : List (Option UInt8)) : tokenOnStar true orient p q = tokenOnStar false orient p q := by
  have hend : endsInStar q = false := by
    rw [Bool.eq_false_iff, ne_eq, endsInStar_iff]
    rintro ⟨q', rfl⟩
    simp at hq
  have hany : (orient q).any Option.isNone = false := by
    rw [Bool.eq_false_iff, ne_eq, any_isNone_iff]
    exact fun h ↦ hq (hmem q h)
  simp only [tokenOnStar, tokenSpecial, hend, hany, Bool.and_false, Bool.false_or]

theorem chunkFwd_noWildcard (hd : star ∉ d) :
    chunkFwd .intersects c d = chunkFwd .includes c d := by
  have hds : d ≠ starChunk := by
    rintro rfl
    simp [starChunk] at hd
  have htok : tokenForward true (tokenize c) (tokenize d) =
      tokenForward false (tokenize c) (tokenize d) := by
    rw [tokenForward, tokenForward]
    refine congrArg (· == some true) (stripFront_noStar (none_notMem_tokenize hd)
      (fun _ _ _ ↦ rfl) (fun _ _ _ ↦ rfl) fun p q' hsub ↦ ?_)
    have hid : ∀ p : List (Option UInt8), id p ⊆ p := fun _ ↦ List.Subset.refl _
    rw [tokenOnStar_noStar hid fun h ↦ none_notMem_tokenize hd (hsub h)]
  simp only [chunkFwd, if_neg hds, MatchOp.typeIntersects, htok]

theorem chunkBwd_noWildcard (hd : star ∉ d) :
    chunkBwd .intersects c d = chunkBwd .includes c d := by
  have hds : d ≠ starChunk := by
    rintro rfl
    simp [starChunk] at hd
  have htok : ∀ agree, tokenBackward true agree (tokenize c) (tokenize d) =
      tokenBackward false agree (tokenize c) (tokenize d) := by
    intro agree
    rw [tokenBackward, tokenBackward]
    have hnone : none ∉ (tokenize d).reverse :=
      fun h ↦ none_notMem_tokenize hd (mem_reverse.mp h)
    refine congrArg (· == some true) (stripFront_noStar hnone
      (fun _ _ _ ↦ rfl) (fun _ _ _ ↦ rfl) fun p q' hsub ↦ ?_)
    rw [tokenOnStarBackward, tokenOnStarBackward, tokenOnStar_noStar
      (fun p _ h ↦ mem_reverse.mp h) fun h ↦ hnone (hsub h)]
  simp only [chunkBwd, if_neg hds, MatchOp.typeIntersects, htok]

/-- A pattern without `**` whose letters hold no `*`. -/
def NoWildcard (Q : List (Option Bytes)) : Prop := ∀ a ∈ Q, ∃ d, a = some d ∧ star ∉ d

theorem NoWildcard.of_subset (hQ : NoWildcard Q) (h : P ⊆ Q) : NoWildcard P :=
  fun a ha ↦ hQ a (h ha)

theorem NoWildcard.none_notMem (hQ : NoWildcard Q) : none ∉ Q := by
  intro h
  obtain ⟨d, hd, -⟩ := hQ none h
  exact absurd hd (by simp)

theorem NoWildcard.star_notMem (hQ : NoWildcard Q) (h : some d ∈ Q) : star ∉ d := by
  obtain ⟨d', hd', hstar⟩ := hQ (some d) h
  rwa [some.inj hd']

theorem keySpecial_noWildcard (hQ : NoWildcard Q) (p : List (Option Bytes)) :
    keySpecial .intersects p Q = keySpecial .includes p Q := by
  have hany : Q.any Option.isNone = false := by
    rw [Bool.eq_false_iff, ne_eq, any_isNone_iff]
    exact hQ.none_notMem
  have hsearch : searchSegment (fwdEntry .intersects) (segments p).headI Q =
      searchSegment (fwdEntry .includes) (segments p).headI Q := by
    refine searchSegment_congr fun c _ entry hentry ↦ ?_
    obtain ⟨d, rfl, hd⟩ := hQ entry hentry
    exact chunkFwd_noWildcard hd
  simp only [keySpecial, hany, Bool.and_false, hsearch]

theorem keyPlain_noWildcard (hQ : NoWildcard Q) (P : List (Option Bytes)) :
    keyPlain .intersects P Q = keyPlain .includes P Q := by
  refine stripFront_noStar hQ.none_notMem (fun _ _ hd ↦ chunkFwd_noWildcard (hQ.star_notMem hd))
    (fun _ _ hd ↦ chunkBwd_noWildcard (hQ.star_notMem hd)) fun P Q' hsub ↦ ?_
  rw [keyOnStar, keyOnStar, keySpecial_noWildcard (hQ.of_subset hsub)]

theorem keyLeftovers_noWildcard (hQ : NoWildcard Q) (P : List (Option Bytes)) :
    keyLeftovers .intersects P Q = keyLeftovers .includes P Q := by
  have hlone : isLoneStar Q = false := by
    rw [Bool.eq_false_iff, ne_eq, isLoneStar_iff]
    rintro rfl
    exact hQ.none_notMem (by simp)
  simp only [keyLeftovers, hlone, Bool.and_false]

theorem keyParts_noWildcard (hQ : NoWildcard Q) :
    keyParts .intersects P Q = keyParts .includes P Q := by
  induction hlen : P.length using Nat.strong_induction_on generalizing P Q with
  | _ n ih =>
    rw [keyParts, keyParts, keyLeftovers_noWildcard hQ]
    split_ifs
    · rfl
    split
    case h_1 => exact keyPlain_noWildcard hQ P
    case h_2 A v B C u D hcutP hcutQ =>
      obtain ⟨rfl, -⟩ := cutVerbatim_eq_some hcutP
      obtain ⟨rfl, -⟩ := cutVerbatim_eq_some hcutQ
      have hrest := ih B.length (by rw [← hlen]; simp; omega) (P := B) (Q := D)
        (hQ.of_subset fun a ha ↦ by simp [ha]) rfl
      rw [keyPlain_noWildcard (hQ.of_subset (subset_append_left _ _)),
        chunkFwd_noWildcard (hQ.star_notMem (by simp)), hrest]
    case h_3 => rfl

/-- Against a right side without wildcards, `intersects` and `includes` run alike. -/
theorem keyVerbatim_noWildcard (hQ : NoWildcard Q) (P : List (Option Bytes)) :
    keyVerbatim .intersects P Q = keyVerbatim .includes P Q := by
  refine stripFront_noStar hQ.none_notMem (fun _ _ hd ↦ chunkFwd_noWildcard (hQ.star_notMem hd))
    (fun _ _ hd ↦ chunkBwd_noWildcard (hQ.star_notMem hd)) fun P Q' hsub ↦ ?_
  exact keyParts_noWildcard (hQ.of_subset hsub)

end ZenohPico.Keyexpr
