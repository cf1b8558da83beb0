import ZenohPico.Keyexpr.ChunkRefinement

/-!
The backward chunk matcher as a function of the two chunks it is given: `chunkBackward_spec`. The
scan starts at the last byte of both chunks, so the patterns are taken in reverse; behind the first
`$*` it turns round and goes on from the first byte.
-/

namespace ZenohPico.Keyexpr

open Foundations List

/-! ### Behind the first star -/

/-- When only one of the chunks is verbatim, nothing behind a star is accepted. -/
theorem stripBack_disagree (both : Bool) (p q : List (Option UInt8)) :
    stripBack both (· == ·) (fun _ ↦ false) (tokenOnStarBackward both false) p q = some false := by
  induction p generalizing q with
  | nil => rfl
  | cons a p ih =>
    match a, q with
    | a, [] => rfl
    | none, b :: q => rfl
    | some a, none :: q =>
      rw [stripBack]
      split_ifs <;> rfl
    | some a, some b :: q =>
      rw [stripBack]
      split_ifs
      · exact ih q
      · rfl

/-- The first byte of a pattern written out. -/
def firstByte : Option UInt8 → UInt8
  | none => dsl0
  | some a => a

theorem firstByte_none : firstByte none = dsl0 := rfl

theorem firstByte_some (a : UInt8) : firstByte (some a) = a := rfl

variable {s l r c : Bytes} {b lb rb x y : ℕ} {p q : List (Option UInt8)}

theorem byteAt_first_of_reads {a : Option UInt8} (h : Reads s b (untokenize (a :: p))) :
    byteAt s b = firstByte a := by
  cases a with
  | none => exact h.1
  | some a => exact h.1

theorem firstByte_ne_dsl0 {a : UInt8} (ha : Literal a) : firstByte (some a) ≠ dsl0 := ha.2.2.1

theorem length_untokenize_cons_pos (a : Option UInt8) (p : List (Option UInt8)) :
    0 < (untokenize (a :: p)).length := by
  cases a <;> simp [untokenize]

theorem chunkBackwardForwardLoop_spec (op : MatchOp) {le re : ℕ} (hp : AllLetters Literal p)
    (hq : AllLetters Literal q) (hl : Reads l lb (untokenize p)) (hr : Reads r rb (untokenize q))
    (hle : le = lb + (untokenize p).length) (hre : re = rb + (untokenize q).length) :
    chunkBackwardForwardLoop op l le r re lb rb =
      .ofBool (stripBack op.typeIntersects (· == ·) (fun _ ↦ true)
        (tokenOnStarBackward op.typeIntersects true) p q == some true) := by
  induction p generalizing q lb rb with
  | nil =>
    rw [chunkBackwardForwardLoop, if_neg]
    · simp [stripBack, hle, untokenize]
    · simp [hle, untokenize]
  | cons a p ih =>
    have hpos := length_untokenize_cons_pos a p
    cases q with
    | nil =>
      rw [chunkBackwardForwardLoop, if_neg]
      · have hne : (lb == le) = false := by simp; omega
        cases a <;> simp [stripBack, hne]
      · simp [hre, untokenize]
    | cons b q =>
      have hpos' := length_untokenize_cons_pos b q
      rw [chunkBackwardForwardLoop, if_pos ⟨by omega, by omega⟩, byteAt_first_of_reads hl,
        byteAt_first_of_reads hr]
      cases a with
      | none =>
        by_cases hboth : op.typeIntersects = true ∧ firstByte b = dsl0
        · obtain rfl : b = none := by
            cases b with
            | none => rfl
            | some b => exact absurd hboth.2 (firstByte_ne_dsl0 (hq b (by simp)))
          rw [if_pos hboth, stripBack, tokenOnStarBackward, tokenOnStar, reverse_cons,
            reverse_cons, endsInStar_concat, hboth.1]
          rfl
        · have hend : (op.typeIntersects && endsInStar (b :: q).reverse) = false := by
            rw [reverse_cons, endsInStar_concat]
            cases b with
            | none => simpa [firstByte] using hboth
            | some b => simp
          rw [if_neg hboth, firstByte_none, if_pos rfl, stripBack, tokenOnStarBackward, tokenOnStar,
            hend, Bool.false_or, Bool.true_and, ofBool_beq_some, reverse_cons,
            dropLast_concat, reverse_reverse, reverse_reverse]
          refine congrArg _ (chunkSpecial_spec op ?_ hq hl.2.2 hr ?_ hre)
          · exact hp.of_subset (subset_cons_self _ _)
          · rw [hle, add_length_untokenize_star]
      | some a =>
        cases b with
        | none =>
          have ha := firstByte_ne_dsl0 (hp a (by simp))
          rw [stripBack]
          by_cases hboth : op.typeIntersects = true
          · rw [if_pos ⟨hboth, rfl⟩, if_pos hboth, tokenOnStarBackward, tokenOnStar,
              reverse_cons, reverse_cons, endsInStar_concat, hboth]
            rfl
          · rw [if_neg (fun h ↦ hboth h.1), if_neg ha, firstByte_none, if_pos ha, if_neg hboth]
            rfl
        | some b =>
          have ha := firstByte_ne_dsl0 (hp a (by simp))
          have hb := firstByte_ne_dsl0 (hq b (by simp))
          rw [if_neg (fun h ↦ hb h.2), if_neg ha, stripBack, firstByte_some, firstByte_some]
          by_cases hab : a = b
          · rw [if_neg (not_not_intro hab), if_pos (beq_iff_eq.mpr hab)]
            rw [add_length_untokenize_letter] at hle hre
            exact ih (hp.of_subset (subset_cons_self _ _))
              (hq.of_subset (subset_cons_self _ _)) hl.2 hr.2 hle hre
          · rw [if_pos hab, if_neg (mt beq_iff_eq.mp hab)]
            rfl

/-- A backward match that answers, with the pointers it leaves on success. -/
structure BackwardAnswer (res : ChunkBackwardMatchData) (answer : Bool) (lbegin rbegin : ℕ) :
    Prop where
  result : res.result = .ofBool answer
  pointers : answer = true → res.lbegin = lbegin ∧ res.rbegin = rbegin

theorem backwardAnswer_yes (lbegin rbegin : ℕ) :
    BackwardAnswer { result := .yes, lbegin, rbegin } true lbegin rbegin :=
  ⟨rfl, fun _ ↦ ⟨rfl, rfl⟩⟩

theorem backwardAnswer_no {res : ChunkBackwardMatchData} (h : res.result = .no)
    (lbegin rbegin : ℕ) : BackwardAnswer res false lbegin rbegin :=
  ⟨h, fun h ↦ absurd h (by simp)⟩

theorem chunkBackwardForward_spec (op : MatchOp) {agree : Bool} (hp : AllLetters Literal p)
    (hq : AllLetters Literal q) (hl : ChunkBefore l lb x (untokenize p))
    (hr : ChunkBefore r rb y (untokenize q))
    (hagree : ((byteAt l x == verbatim) != (byteAt r y == verbatim)) = !agree) : BackwardAnswer
      (chunkBackwardForward op l lb (x + (untokenize p).length) r rb (y + (untokenize q).length))
      (stripBack op.typeIntersects (· == ·) (fun _ ↦ agree)
        (tokenOnStarBackward op.typeIntersects agree) p q == some true) x y := by
  simp only [chunkBackwardForward, hl.chunkBegin_eq, hr.chunkBegin_eq, hagree]
  cases agree with
  | false =>
    rw [stripBack_disagree]
    exact backwardAnswer_no rfl _ _
  | true =>
    refine ⟨?_, fun _ ↦ ⟨rfl, rfl⟩⟩
    exact chunkBackwardForwardLoop_spec op hp hq hl.reads hr.reads rfl rfl

/-! ### The backward scan -/

theorem backward_entered_iff (hl : ChunkBefore l lb x (untokenize p))
    (hr : ChunkBefore r rb y (untokenize q)) :
    (lb < x + (untokenize p).length ∧ rb < y + (untokenize q).length ∧
      byteAt l (x + (untokenize p).length - 1) ≠ delimiter ∧
        byteAt r (y + (untokenize q).length - 1) ≠ delimiter) ↔ p ≠ [] ∧ q ≠ [] := by
  have hp : (lb < x + (untokenize p).length ∧
      byteAt l (x + (untokenize p).length - 1) ≠ delimiter) ↔ p ≠ [] := by
    rw [hl.entered_iff, ne_eq, untokenize_eq_nil_iff]
  have hq : (rb < y + (untokenize q).length ∧
      byteAt r (y + (untokenize q).length - 1) ≠ delimiter) ↔ q ≠ [] := by
    rw [hr.entered_iff, ne_eq, untokenize_eq_nil_iff]
  rw [← hp, ← hq]
  tauto

theorem isLoneStar_eq_false (h : q ≠ [none]) : isLoneStar q = false := by
  rw [Bool.eq_false_iff, ne_eq, isLoneStar_iff]
  exact h

theorem isLoneStar_reverse (q : List (Option UInt8)) : isLoneStar q.reverse = isLoneStar q := by
  rw [Bool.eq_iff_iff, isLoneStar_iff, isLoneStar_iff, reverse_eq_iff, reverse_singleton]

theorem chunkIsStardslBackward_spec (hq : AllLetters Literal q)
    (h : ChunkBefore s b x (untokenize q)) (hne : q ≠ []) :
    chunkIsStardslBackward s b (x + (untokenize q).length) = isLoneStar q := by
  obtain ⟨q', a, rfl⟩ : ∃ q' a, q = q' ++ [a] := ⟨_, _, (dropLast_append_getLast hne).symm⟩
  rw [chunkIsStardslBackward, byteAt_last_of_reads h.reads]
  cases a with
  | some a =>
    have ha := lastByte_ne_dsl1 (hq a (by simp))
    rw [beq_false_of_ne ha, Bool.false_and, isLoneStar_eq_false (by cases q' <;> simp)]
  | none =>
    rw [lastByte_none, beq_self_eq_true, Bool.true_and]
    cases q' using List.reverseRecOn with
    | nil =>
      simp only [nil_append, untokenize, length_cons, length_nil, isLoneStar]
      rcases h.start with rfl | ⟨hlt, hdel⟩
      · simp
      · rw [show x + (0 + 1 + 1) - 3 = x - 1 by omega, hdel]
        simp
        omega
    | append_singleton q' a =>
      -- bytes stand before the star: neither the region's start nor a `/` is two bytes back
      have hpos := length_untokenize_concat_pos q' a
      have hle := h.le
      have hprev : byteAt s (x + (untokenize (q' ++ [a])).length - 1) ≠ delimiter := by
        have htake : ChunkBefore s b x (untokenize (q' ++ [a])) := by
          rw [untokenize_concat_star] at h
          exact h.take
        refine (htake.entered_iff.mpr ?_).2
        rw [ne_eq, untokenize_eq_nil_iff]
        simp
      rw [untokenize_concat_star, isLoneStar_eq_false (by cases q' <;> simp)]
      simp only [length_append, length_cons, length_nil] at hpos hprev ⊢
      rw [show x + ((untokenize (q' ++ [a])).length + (0 + 1 + 1)) - 3 =
        x + (untokenize (q' ++ [a])).length - 1 by omega, beq_false_of_ne hprev]
      simp
      omega

/-- The tests behind the backward scan, when one of the chunks is used up. -/
theorem chunkBackwardLoop_exhausted (op : MatchOp) (agree : Bool) (hp : AllLetters Literal p)
    (hq : AllLetters Literal q) (hl : ChunkBefore l lb x (untokenize p))
    (hr : ChunkBefore r rb y (untokenize q)) (h : p = [] ∨ q = []) : BackwardAnswer
      (chunkBackwardLoop op l lb r rb (x + (untokenize p).length) (y + (untokenize q).length))
      (tokenBackward op.typeIntersects agree p q) x y := by
  rw [chunkBackwardLoop, if_neg (by rw [backward_entered_iff hl hr]; tauto)]
  simp only [hl.exhausted_iff, hr.exhausted_iff, isEmpty_untokenize]
  rcases eq_or_ne p [] with rfl | hpne
  · rcases eq_or_ne q [] with rfl | hqne
    · exact backwardAnswer_yes x y
    rw [chunkIsStardslBackward_spec hq hr hqne]
    have hemptyq : q.isEmpty = false := by simpa using hqne
    have hanswer : tokenBackward op.typeIntersects agree [] q =
        (op.typeIntersects && isLoneStar q) := by
      rw [tokenBackward, reverse_nil, stripFront, isEmpty_reverse, hemptyq,
        Bool.false_or, isLoneStar_reverse]
      cases op.typeIntersects && isLoneStar q <;> rfl
    rw [hanswer, hemptyq]
    by_cases hboth : op.typeIntersects = true ∧ isLoneStar q = true
    · obtain ⟨hop, hlone⟩ := hboth
      rw [isLoneStar_iff] at hlone
      rw [hlone, hop]
      exact backwardAnswer_yes x y
    · have hfalse : (op.typeIntersects && isLoneStar q) = false := by simpa using hboth
      rw [hfalse]
      simp only [isEmpty_nil, Bool.and_false, Bool.and_true, Bool.false_and, hfalse,
        Bool.false_eq_true, if_false]
      exact backwardAnswer_no rfl _ _
  · obtain rfl : q = [] := h.resolve_left hpne
    rw [chunkIsStardslBackward_spec hp hl hpne]
    have hemptyp : p.isEmpty = false := by simpa using hpne
    have hanswer : tokenBackward op.typeIntersects agree p [] = isLoneStar p := by
      obtain ⟨p', a, rfl⟩ : ∃ p' a, p = p' ++ [a] :=
        ⟨_, _, (dropLast_append_getLast hpne).symm⟩
      rw [tokenBackward, reverse_nil, ← isLoneStar_reverse, reverse_concat, stripFront]
      cases isLoneStar (a :: p'.reverse) <;> rfl
    rw [hanswer, hemptyp]
    by_cases hlone : isLoneStar p = true
    · rw [isLoneStar_iff] at hlone
      rw [hlone]
      cases op <;> exact backwardAnswer_yes x y
    · rw [Bool.not_eq_true] at hlone
      simp only [hlone, Bool.and_false, Bool.false_and, Bool.false_eq_true, if_false]
      exact backwardAnswer_no rfl _ _

theorem add_length_concat_star (x : ℕ) (p : List (Option UInt8)) :
    x + (untokenize (p ++ [none])).length - dslLen = x + (untokenize p).length := by
  simp only [untokenize_concat_star, length_append, length_cons, length_nil, dslLen]
  omega

theorem add_length_concat_letter (x : ℕ) (p : List (Option UInt8)) (a : UInt8) :
    x + (untokenize (p ++ [some a])).length - 1 = x + (untokenize p).length := by
  simp only [untokenize_concat_letter, length_append, length_cons, length_nil]
  omega

theorem take_concat {a : Option UInt8} (h : ChunkBefore s b x (untokenize (p ++ [a]))) :
    ChunkBefore s b x (untokenize p) := by
  rw [untokenize_append] at h
  exact h.take

theorem chunkBackwardLoop_spec (op : MatchOp) {agree : Bool} (hp : AllLetters Literal p)
    (hq : AllLetters Literal q) (hl : ChunkBefore l lb x (untokenize p))
    (hr : ChunkBefore r rb y (untokenize q))
    (hagree : ((byteAt l x == verbatim) != (byteAt r y == verbatim)) = !agree) : BackwardAnswer
      (chunkBackwardLoop op l lb r rb (x + (untokenize p).length) (y + (untokenize q).length))
      (tokenBackward op.typeIntersects agree p q) x y := by
  induction p using List.reverseRecOn generalizing q with
  | nil => exact chunkBackwardLoop_exhausted op agree hp hq hl hr (Or.inl rfl)
  | append_singleton p a ih =>
    cases q using List.reverseRecOn with
    | nil => exact chunkBackwardLoop_exhausted op agree hp hq hl hr (Or.inr rfl)
    | append_singleton q b =>
      have hp' : AllLetters Literal p := hp.of_subset (subset_append_left _ _)
      have hq' : AllLetters Literal q := hq.of_subset (subset_append_left _ _)
      rw [chunkBackwardLoop, if_pos ((backward_entered_iff hl hr).mpr ⟨by simp, by simp⟩),
        byteAt_last_of_reads hl.reads, byteAt_last_of_reads hr.reads, tokenBackward,
        reverse_concat, reverse_concat]
      match a, b with
      | none, b =>
        rw [lastByte_none, if_pos rfl, add_length_concat_star, stripFront, reverse_cons,
          reverse_reverse, reverse_reverse]
        exact chunkBackwardForward_spec op hp' hq (take_concat hl) hr hagree
      | some a, none =>
        have ha := lastByte_ne_dsl1 (hp a (by simp))
        rw [if_neg ha, stripFront]
        by_cases hboth : op.typeIntersects = true
        · -- the star is on the right: the same scan with the sides exchanged
          rw [if_pos ⟨hboth, lastByte_none⟩, if_pos hboth, add_length_concat_star,
            reverse_cons, reverse_reverse, reverse_reverse]
          rw [bne_comm] at hagree
          have hrest := chunkBackwardForward_spec op hq' hp (take_concat hr) hl hagree
          refine ⟨hrest.result, fun h ↦ ?_⟩
          obtain ⟨hqy, hpx⟩ := hrest.pointers h
          exact ⟨hpx, hqy⟩
        · rw [if_neg (fun h ↦ hboth h.1), lastByte_none, if_pos ha, if_neg hboth]
          exact backwardAnswer_no rfl _ _
      | some a, some b =>
        have ha := lastByte_ne_dsl1 (hp a (by simp))
        have hb := lastByte_ne_dsl1 (hq b (by simp))
        rw [if_neg ha, if_neg (fun h ↦ hb h.2), stripFront, lastByte_some, lastByte_some]
        by_cases hab : a = b
        · rw [if_neg (not_not_intro hab), if_pos (beq_iff_eq.mpr hab), add_length_concat_letter,
            add_length_concat_letter]
          exact ih hp' hq' (take_concat hl) (take_concat hr)
        · rw [if_pos hab, if_neg (mt beq_iff_eq.mp hab)]
          exact backwardAnswer_no rfl _ _

/-! ### Whole chunks, backward -/

theorem superwild_of_chunkBefore (h : ChunkBefore s b x doubleStar) :
    (byteAt s (x + doubleStar.length - 1) == star && decide (b + 2 ≤ x + doubleStar.length) &&
      byteAt s (x + doubleStar.length - 1 - 1) == star) = true := by
  have hle := h.le
  simp only [doubleStar, length_cons, length_nil]
  rw [show x + (0 + 1 + 1) - 1 - 1 = x by omega, show x + (0 + 1 + 1) - 1 = x + 1 by omega,
    h.reads.1, h.reads.2.1]
  simp [hle]

/-- What the two last bytes of a chunk other than `**` say about it. -/
theorem last_bytes_of_chunkBefore (h : ChunkBefore s b x c) (hc : CanonicalLetter c) :
    (byteAt s (x + c.length - 1) == star && decide (b + 2 ≤ x + c.length) &&
      byteAt s (x + c.length - 1 - 1) == star) = false ∧ (byteAt s (x + c.length - 1) == star &&
      (b == x + c.length - 1 || byteAt s (x + c.length - 1 - 1) == delimiter)) =
        (c == starChunk) := by
  have hle := h.le
  rcases hc with rfl | ⟨hne, hlit, -⟩
  · simp only [starChunk, length_cons, length_nil] at h ⊢
    rw [show x + (0 + 1) - 1 = x by omega, h.reads.1]
    rcases h.start with rfl | ⟨hlt, hdel⟩
    · simp
    · rw [hdel]
      simp [delimiter, star]
  · obtain ⟨p, a, hpa⟩ : ∃ p a, tokenize c = p ++ [a] := by
      have htok : tokenize c ≠ [] := by
        rw [ne_eq, ← untokenize_eq_nil_iff, untokenize_tokenize]
        exact hne
      exact ⟨_, _, (dropLast_append_getLast htok).symm⟩
    have hcs : (c == starChunk) = false := by
      rw [beq_eq_false_iff_ne]
      rintro rfl
      exact (hlit star (by simp [tokenize, starChunk])).2.2.2 rfl
    have hc : c = untokenize (p ++ [a]) := by rw [← hpa, untokenize_tokenize]
    rw [hcs, hc]
    rw [hpa] at hlit
    have hreads := h.reads
    rw [hc] at hreads
    have hlast := byteAt_last_of_reads hreads
    cases a with
    | some a =>
      have ha : a ≠ star := (hlit a (by simp)).2.2.2
      rw [hlast, lastByte_some, beq_false_of_ne ha]
      simp
    | none =>
      rw [untokenize_concat_star] at hreads ⊢
      have hdollar := (reads_append_iff.mp hreads).2.1
      simp only [length_append, length_cons, length_nil]
      rw [show x + ((untokenize p).length + (0 + 1 + 1)) - 1 - 1 = x + (untokenize p).length by
        omega, hdollar]
      refine ⟨by simp [dsl0, star], ?_⟩
      rw [beq_false_of_ne (show b ≠ x + ((untokenize p).length + (0 + 1 + 1)) - 1 by omega)]
      simp [dsl0, delimiter]

theorem chunkBackward_leftSuperwild (op : MatchOp) {l r : Bytes} {lb x : ℕ} (rb re : ℕ)
    (hl : ChunkBefore l lb x doubleStar) :
    (chunkBackward op l lb (x + doubleStar.length) r rb re).result = .leftSuperwild := by
  simp only [chunkBackward, superwild_of_chunkBefore hl, if_true]

theorem chunkBackward_rightSuperwild (op : MatchOp) (hc : CanonicalLetter c)
    (hl : ChunkBefore l lb x c) (hr : ChunkBefore r rb y doubleStar) :
    (chunkBackward op l lb (x + c.length) r rb (y + doubleStar.length)).result =
      if op.typeIncludes then .no else .rightSuperwild := by
  simp only [chunkBackward, (last_bytes_of_chunkBefore hl hc).1, superwild_of_chunkBefore hr,
    if_true, Bool.false_eq_true, if_false]
  split_ifs <;> rfl

/-- The backward matcher on two chunks other than `**`. -/
theorem chunkBackward_spec (op : MatchOp) {d : Bytes} (hc : CanonicalLetter c)
    (hd : CanonicalLetter d) (hl : ChunkBefore l lb x c) (hr : ChunkBefore r rb y d) :
    BackwardAnswer (chunkBackward op l lb (x + c.length) r rb (y + d.length)) (chunkBwd op c d)
      x y := by
  simp only [chunkBackward, (last_bytes_of_chunkBefore hl hc).1,
    (last_bytes_of_chunkBefore hr hd).1, (last_bytes_of_chunkBefore hl hc).2,
    (last_bytes_of_chunkBefore hr hd).2, hl.chunkBegin_eq, hr.chunkBegin_eq, Bool.false_eq_true,
    if_false]
  rw [chunkBwd]
  by_cases hcs : c = starChunk
  · subst hcs
    rw [if_pos rfl, if_pos (beq_self_eq_true _), bne, beq_verbatim_of_reads hr.reads hd.ne_nil]
    exact ⟨rfl, fun _ ↦ ⟨rfl, rfl⟩⟩
  rw [if_neg hcs, if_neg (mt beq_iff_eq.mp hcs)]
  by_cases hds : d = starChunk
  · subst hds
    rw [if_pos rfl, if_pos (beq_self_eq_true _), bne, beq_verbatim_of_reads hl.reads hc.ne_nil]
    cases op with
    | includes => exact backwardAnswer_no rfl _ _
    | intersects => exact ⟨rfl, fun _ ↦ ⟨rfl, rfl⟩⟩
  rw [if_neg hds, if_neg (mt beq_iff_eq.mp hds)]
  have hloop := chunkBackwardLoop_spec op (hc.resolve_left hcs).2.1 (hd.resolve_left hds).2.1
    (by rwa [untokenize_tokenize] : ChunkBefore l lb x (untokenize (tokenize c)))
    (by rwa [untokenize_tokenize] : ChunkBefore r rb y (untokenize (tokenize d)))
    (bne_verbatim_of_reads hl.reads hr.reads hc.ne_nil hd.ne_nil)
  rw [untokenize_tokenize, untokenize_tokenize] at hloop
  exact hloop

end ZenohPico.Keyexpr
