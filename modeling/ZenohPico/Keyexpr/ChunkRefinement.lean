import ZenohPico.Keyexpr.Reading

/-!
The chunk matchers as functions of the two chunks they are given. `chunkFwd` and `chunkBwd` are
written over the byte patterns of the chunks; `chunkForward_spec` and `chunkBackward_spec` say that
the pointer code computes them, wherever in a key expression the chunks stand.
-/

namespace ZenohPico.Keyexpr

open Foundations List Option

/-! ### The matchers on patterns -/

/-- The pattern ends in a star. -/
def endsInStar {α : Type*} (q : List (Option α)) : Bool :=
  match q.getLast? with
  | some none => true
  | _ => false

/-- A middle with a star on both sides of `p`, against `q`. -/
def tokenSpecial (both : Bool) (p q : List (Option UInt8)) : Bool :=
  (both && q.any Option.isNone) || searchSegments (· == ·) (segments p) (untokenize q)

/-- What is left when a star of `p` stands at one end and a star of `p` or `q` at the other. The
patterns are given in the direction of the first scan, and `orient` turns them into reading
order. -/
def tokenOnStar (both : Bool) (orient : List (Option UInt8) → List (Option UInt8))
    (p q : List (Option UInt8)) : Bool :=
  (both && endsInStar q) || tokenSpecial both (orient p.dropLast) (orient q)

/-- The forward scan of two chunks. -/
def tokenForward (both : Bool) (p q : List (Option UInt8)) : Bool :=
  stripFront both (· == ·) (· == ·) (fun _ ↦ true) (fun p q ↦ some (tokenOnStar both id p q)) p q
    == some true

/-- The treatment of stars in the backward scan. -/
def tokenOnStarBackward (both agree : Bool) (p q : List (Option UInt8)) : Option Bool :=
  some (agree && tokenOnStar both List.reverse p q)

/-- The backward scan of two chunks, where `agree` says whether both or none are verbatim. -/
def tokenBackward (both agree : Bool) (p q : List (Option UInt8)) : Bool :=
  stripFront both (· == ·) (· == ·) (fun _ ↦ agree) (tokenOnStarBackward both agree) p.reverse
    q.reverse == some true

/-- Whether both chunks or none of them are verbatim. -/
def verbatimAgree (c d : Bytes) : Bool := decide (StartsVerbatim c ↔ StartsVerbatim d)

/-- What `_z_chunk_forward` answers on two chunks other than `**`. -/
def chunkFwd (op : MatchOp) (c d : Bytes) : Bool :=
  verbatimAgree c d &&
    (c == starChunk ||
      if d = starChunk then op.typeIntersects
      else tokenForward op.typeIntersects (tokenize c) (tokenize d))

/-- What `_z_chunk_backward` answers on two chunks other than `**`. -/
def chunkBwd (op : MatchOp) (c d : Bytes) : Bool :=
  if c = starChunk then !decide (StartsVerbatim d)
  else if d = starChunk then op.typeIntersects && !decide (StartsVerbatim c)
  else tokenBackward op.typeIntersects (verbatimAgree c d) (tokenize c) (tokenize d)

/-! ### Searching -/

variable {α : Type*} {r seg l t s c : Bytes} {lb rb re le b : ℕ}

theorem searchSegment_eq_none_of_length {γ : Type*} {r : α → γ → Bool} {seg : List α} {q : List γ}
    (h : q.length < seg.length) : searchSegment r seg q = none := by
  rcases hs : searchSegment r seg q with _ | rest
  · rfl
  · obtain ⟨pre, mid, rfl, hmid⟩ := exists_of_searchSegment hs
    have hlen := hmid.length_eq
    simp only [length_append] at h
    omega

theorem memcmpEq_of_reads (hl : Reads l lb seg) (hr : Reads r rb t) (hle : seg.length ≤ t.length) :
    memcmpEq r l rb lb seg.length = (dropSegment (· == ·) seg t).isSome := by
  induction seg generalizing lb rb t with
  | nil => rfl
  | cons a seg ih =>
    cases t with
    | nil => simp at hle
    | cons b t =>
      simp only [length_cons, Nat.add_le_add_iff_right] at hle
      rw [length_cons, memcmpEq, dropSegment, hl.1, hr.1, ih hl.2 hr.2 hle]
      by_cases hab : a = b
      · simp [hab]
      · simp [hab, Ne.symm hab]

theorem subchunkSearch_of_reads {n : ℕ} (hl : Reads l lb seg) (hr : Reads r rb t)
    (hn : n = seg.length) (hre : re = rb + t.length) : subchunkSearch l lb n r rb re =
      (searchSegment (· == ·) seg t).map fun rest ↦ re - rest.length := by
  induction t generalizing rb with
  | nil =>
    rw [subchunkSearch, hn, hre]
    cases seg with
    | nil => simp [memcmpEq, searchSegment, dropSegment]
    | cons a seg => simp [searchSegment, dropSegment]
  | cons b t ih =>
    rw [subchunkSearch, hn, hre]
    by_cases hle : seg.length ≤ (b :: t).length
    · rw [if_pos (by omega), memcmpEq_of_reads hl hr hle, searchSegment]
      rcases hdrop : dropSegment (· == ·) seg (b :: t) with _ | rest
      · rw [← hn, ← hre, ih hr.2 (by rw [hre, length_cons]; omega)]
        simp
      · obtain ⟨mid, heq, hmid⟩ := dropSegment_eq_some_iff.mp hdrop
        have hcount := congrArg List.length heq
        rw [length_append, ← hmid.length_eq] at hcount
        simp only [isSome_some, if_true, map_some, some.injEq]
        omega
    · rw [if_neg (by omega), searchSegment_eq_none_of_length (by omega)]
      rfl

theorem untokenize_map_some (seg : Bytes) : untokenize (seg.map some) = seg := by
  induction seg with
  | nil => rfl
  | cons a seg ih => rw [map_cons, untokenize, ih]

/-- A pattern is a single run of letters, or a first run, a star and the rest. -/
theorem segments_cases (p : List (Option α)) : (∃ seg, p = seg.map some ∧ segments p = [seg]) ∨
      ∃ seg p', p = seg.map some ++ none :: p' ∧ segments p = seg :: segments p' := by
  induction p with
  | nil => exact Or.inl ⟨[], rfl, rfl⟩
  | cons a p ih =>
    cases a with
    | none => exact Or.inr ⟨[], p, rfl, rfl⟩
    | some a =>
      rcases ih with ⟨seg, rfl, hseg⟩ | ⟨seg, p', rfl, hseg⟩
      · exact Or.inl ⟨a :: seg, rfl, by rw [segments, hseg]⟩
      · exact Or.inr ⟨a :: seg, p', rfl, by rw [segments, hseg]⟩

variable {p q : List (Option UInt8)}

theorem dsl0_notMem_of_literal (hp : AllLetters Literal (seg.map some ++ p)) : dsl0 ∉ seg := by
  intro hmem
  exact (hp dsl0 (by simp [hmem])).2.2.1 rfl

theorem chunkRightContains_spec (hp : AllLetters Literal p) (hl : Reads l lb (untokenize p))
    (hr : Reads r rb t) (hle : le = lb + (untokenize p).length) (hre : re = rb + t.length) :
    chunkRightContainsAllStardslSubchunksOfLeft l lb le r rb re =
      searchSegments (· == ·) (segments p) t := by
  induction hlen : p.length using Nat.strong_induction_on generalizing p lb rb t with
  | _ n ih =>
    rw [chunkRightContainsAllStardslSubchunksOfLeft]
    rcases segments_cases p with ⟨seg, rfl, hseg⟩ | ⟨seg, p', rfl, hseg⟩
    · -- one run of letters: no `$` is found, and the search for the run decides
      have hdollar : dsl0 ∉ seg := dsl0_notMem_of_literal (p := []) (by simpa using hp)
      rw [untokenize_map_some] at hl hle
      have hnone : memchr l dsl0 lb (le - lb) = none :=
        memchr_eq_none_of_reads hl (by omega) hdollar
      rw [hseg]
      split
      case h_1 =>
        rw [subchunkSearch_of_reads hl hr (by omega) hre, searchSegments]
        cases searchSegment (· == ·) seg t <;> rfl
      case h_2 nextDsl hsome => rw [hnone] at hsome; exact absurd hsome (by simp)
    · have hdollar : dsl0 ∉ seg := dsl0_notMem_of_literal hp
      rw [untokenize_append, untokenize_map_some, untokenize] at hl hle
      obtain ⟨hlseg, hlrest⟩ := reads_append_iff.mp hl
      simp only [length_append, length_cons] at hle
      have hfound : memchr l dsl0 lb (le - lb) = some (lb + seg.length) :=
        memchr_eq_some_of_reads (reads_concat_iff.mpr ⟨hlseg, hlrest.1⟩) (by omega) hdollar
      rw [hseg, searchSegments]
      split
      case h_1 hnone => rw [hfound] at hnone; exact absurd hnone (by simp)
      case h_2 nextDsl hsome =>
        rw [hfound, some.injEq] at hsome
        subst hsome
        rw [subchunkSearch_of_reads hlseg hr (by omega) hre]
        rcases hsearch : searchSegment (· == ·) seg t with _ | rest
        · rfl
        · obtain ⟨pre, mid, rfl, hmid⟩ := exists_of_searchSegment hsearch
          have hrest : Reads r (re - rest.length) rest := by
            rw [← append_assoc] at hr
            have htail := (reads_append_iff.mp hr).2
            rwa [show rb + (pre ++ mid).length = re - rest.length by
              simp only [hre, length_append]; omega] at htail
          have hnext : Reads l (lb + (lb + seg.length - lb) + dslLen) (untokenize p') := by
            have htail := hlrest.2.2
            rwa [show lb + seg.length + 1 + 1 = lb + (lb + seg.length - lb) + dslLen by
              simp only [dslLen]; omega] at htail
          refine ih p'.length ?_ ?_ hnext hrest ?_ ?_ rfl
          · rw [← hlen]
            simp only [length_append, length_cons]
            omega
          · exact hp.of_subset
              (List.Subset.trans (subset_cons_self _ _) (subset_append_right _ _))
          · simp only [dslLen]
            omega
          · simp only [length_append] at hre
            show re = re - rest.length + rest.length
            omega

theorem dsl0_mem_untokenize_iff (hp : AllLetters Literal p) : dsl0 ∈ untokenize p ↔ none ∈ p := by
  induction p with
  | nil => simp [untokenize]
  | cons a p ih =>
    have hrest := ih (hp.of_subset (subset_cons_self _ _))
    cases a with
    | none => simp [untokenize]
    | some a => simp [untokenize, hrest, Ne.symm (hp a (by simp)).2.2.1]

theorem chunkSpecial_spec (op : MatchOp) (hp : AllLetters Literal p) (hq : AllLetters Literal q)
    (hl : Reads l lb (untokenize p)) (hr : Reads r rb (untokenize q))
    (hle : le = lb + (untokenize p).length) (hre : re = rb + (untokenize q).length) :
    chunkSpecial op l lb le r rb re = tokenSpecial op.typeIntersects p q := by
  have hcontains : chunkContainsStardsl r rb re = q.any Option.isNone := by
    rw [chunkContainsStardsl, show re - rb = (untokenize q).length by omega, memchr_of_reads hr]
    rw [Bool.eq_iff_iff, List.any_eq_true]
    have hmem := dsl0_mem_untokenize_iff hq
    split_ifs with h <;> simp_all
  rw [chunkSpecial, tokenSpecial, hcontains, chunkRightContains_spec hp hl hr hle hre]

/-! ### The forward scan -/

theorem untokenize_concat_star (p : List (Option UInt8)) :
    untokenize (p ++ [none]) = untokenize p ++ [dsl0, star] := by
  rw [untokenize_append]
  rfl

theorem untokenize_concat_letter (p : List (Option UInt8)) (a : UInt8) :
    untokenize (p ++ [some a]) = untokenize p ++ [a] := by
  rw [untokenize_append]
  rfl

theorem endsInStar_concat (q : List (Option α)) (b : Option α) :
    endsInStar (q ++ [b]) = b.isNone := by
  cases b <;> simp [endsInStar]

/-- The last byte of a pattern written out: `*` for a star, the letter itself for a letter. -/
def lastByte : Option UInt8 → UInt8
  | none => dsl1
  | some a => a

theorem lastByte_some (a : UInt8) : lastByte (some a) = a := rfl

theorem lastByte_none : lastByte none = dsl1 := rfl

theorem lastByte_ne_dsl1 {a : UInt8} (ha : Literal a) : lastByte (some a) ≠ dsl1 := ha.2.2.2

theorem byteAt_last_of_reads {a : Option UInt8} (h : Reads s b (untokenize (p ++ [a]))) :
    byteAt s (b + (untokenize (p ++ [a])).length - 1) = lastByte a := by
  cases a with
  | none =>
    rw [untokenize_concat_star] at h ⊢
    have hlast := (reads_append_iff.mp h).2.2.1
    simp only [length_append, length_cons, length_nil]
    rw [show b + ((untokenize p).length + (0 + 1 + 1)) - 1 = b + (untokenize p).length + 1 by omega]
    exact hlast
  | some a =>
    rw [untokenize_concat_letter] at h ⊢
    have hlast := (reads_concat_iff.mp h).2
    simp only [length_append, length_cons, length_nil]
    rw [show b + ((untokenize p).length + (0 + 1)) - 1 = b + (untokenize p).length by omega]
    exact hlast

theorem length_untokenize_concat_pos (p : List (Option UInt8)) (a : Option UInt8) :
    0 < (untokenize (p ++ [a])).length := by
  cases a with
  | none => simp [untokenize_concat_star]
  | some a => simp [untokenize_concat_letter]

theorem ofBool_beq_some (b : Bool) : ChunkMatchResult.ofBool (some b == some true) = .ofBool b := by
  cases b <;> rfl

theorem chunkForwardBackwardLoop_spec (op : MatchOp) (hp : AllLetters Literal p)
    (hq : AllLetters Literal q) (hl : Reads l lb (untokenize p.reverse))
    (hr : Reads r rb (untokenize q.reverse)) (hle : le = lb + (untokenize p.reverse).length)
    (hre : re = rb + (untokenize q.reverse).length) : chunkForwardBackwardLoop op l lb r rb le re =
      .ofBool (stripBack op.typeIntersects (· == ·) (fun _ ↦ true)
        (fun p q ↦ some (tokenOnStar op.typeIntersects id p q)) p q == some true) := by
  induction p generalizing q le re with
  | nil =>
    rw [chunkForwardBackwardLoop, if_neg]
    · simp [stripBack, hle, untokenize]
    · simp [hle, untokenize]
  | cons a p ih =>
    have hpos := length_untokenize_concat_pos p.reverse a
    rw [reverse_cons] at hl hle
    have hlast := byteAt_last_of_reads hl
    rw [← hle] at hlast
    cases q with
    | nil =>
      rw [chunkForwardBackwardLoop, if_neg]
      · have hne : (lb == le) = false := by simp; omega
        cases a <;> simp [stripBack, hne]
      · simp [hre, untokenize]
    | cons b q =>
      have hpos' := length_untokenize_concat_pos q.reverse b
      rw [reverse_cons] at hr hre
      have hlast' := byteAt_last_of_reads hr
      rw [← hre] at hlast'
      rw [chunkForwardBackwardLoop, if_pos ⟨by omega, by omega⟩, hlast, hlast']
      cases a with
      | none =>
        by_cases hboth : op.typeIntersects = true ∧ lastByte b = dsl1
        · -- both end in a star: the answer is yes without a look at the middle
          obtain rfl : b = none := by
            cases b with
            | none => rfl
            | some b => exact absurd hboth.2 (lastByte_ne_dsl1 (hq b (by simp)))
          rw [if_pos hboth, stripBack, tokenOnStar, reverse_cons, reverse_cons,
            endsInStar_concat, hboth.1]
          rfl
        · have hend : (op.typeIntersects && endsInStar (b :: q).reverse) = false := by
            rw [reverse_cons, endsInStar_concat]
            cases b with
            | none => simpa [lastByte] using hboth
            | some b => simp
          rw [if_neg hboth, if_pos lastByte_none, stripBack, tokenOnStar, hend, Bool.false_or,
            ofBool_beq_some, reverse_cons, dropLast_concat, reverse_cons]
          rw [untokenize_concat_star] at hl hle
          simp only [length_append, length_cons, length_nil] at hle
          refine congrArg _ (chunkSpecial_spec op ?_ ?_ (reads_append_iff.mp hl).1 hr ?_ ?_)
          · exact hp.of_subset (fun x hx ↦ mem_cons_of_mem _ (by simpa using hx))
          · exact hq.of_subset (fun x hx ↦ by simpa [or_comm] using hx)
          · simp only [dslLen, id_eq]
            omega
          · simp only [id_eq]
            omega
      | some a =>
        cases b with
        | none =>
          have ha := lastByte_ne_dsl1 (hp a (by simp))
          rw [stripBack]
          by_cases hboth : op.typeIntersects = true
          · rw [if_pos ⟨hboth, rfl⟩, if_pos hboth, tokenOnStar, reverse_cons,
              reverse_cons, endsInStar_concat, hboth]
            rfl
          · rw [if_neg (fun h ↦ hboth h.1), if_neg ha, lastByte_none, if_pos ha, if_neg hboth]
            rfl
        | some b =>
          have ha := lastByte_ne_dsl1 (hp a (by simp))
          have hb := lastByte_ne_dsl1 (hq b (by simp))
          rw [if_neg (fun h ↦ hb h.2), if_neg ha, stripBack]
          rw [lastByte_some, lastByte_some]
          by_cases hab : a = b
          · rw [if_neg (not_not_intro hab), if_pos (beq_iff_eq.mpr hab)]
            rw [untokenize_concat_letter] at hl hr hle hre
            simp only [length_append, length_cons, length_nil] at hle hre
            exact ih (hp.of_subset (subset_cons_self _ _))
              (hq.of_subset (subset_cons_self _ _)) (reads_append_iff.mp hl).1
              (reads_append_iff.mp hr).1 (by omega) (by omega)
          · rw [if_pos hab, if_neg (mt beq_iff_eq.mp hab)]
            rfl

/-- A forward match that answers, with the pointers it leaves on success. -/
structure ForwardAnswer (res : ChunkForwardMatchData) (answer : Bool) (lend rend : ℕ) : Prop where
  result : res.result = .ofBool answer
  pointers : answer = true → res.lend = lend ∧ res.rend = rend

theorem forwardAnswer_yes (lend rend : ℕ) :
    ForwardAnswer { result := .yes, lend, rend } true lend rend :=
  ⟨rfl, fun _ ↦ ⟨rfl, rfl⟩⟩

theorem forwardAnswer_no {res : ChunkForwardMatchData} (h : res.result = .no) (lend rend : ℕ) :
    ForwardAnswer res false lend rend :=
  ⟨h, fun h ↦ absurd h (by simp)⟩

theorem chunkForwardBackward_spec (op : MatchOp) (hp : AllLetters Literal p)
    (hq : AllLetters Literal q) (hl : ChunkAt l lb le (untokenize p))
    (hr : ChunkAt r rb re (untokenize q)) : ForwardAnswer (chunkForwardBackward op l lb le r rb re)
      (stripBack op.typeIntersects (· == ·) (fun _ ↦ true)
        (fun p q ↦ some (tokenOnStar op.typeIntersects id p q)) p.reverse q.reverse == some true)
      (lb + (untokenize p).length) (rb + (untokenize q).length) := by
  rw [chunkForwardBackward, hl.chunkEndBehind_eq]
  refine ⟨?_, fun _ ↦ ⟨rfl, hr.chunkEnd_eq⟩⟩
  refine chunkForwardBackwardLoop_spec op ?_ ?_ ?_ ?_ ?_ ?_
  · exact hp.of_subset (fun a ha ↦ mem_reverse.mp ha)
  · exact hq.of_subset (fun a ha ↦ mem_reverse.mp ha)
  · simpa using hl.reads
  · simpa using hr.reads
  · simp
  · simpa using hr.chunkEnd_eq

theorem untokenize_eq_nil_iff : untokenize p = [] ↔ p = [] := by
  match p with
  | [] => simp [untokenize]
  | none :: p => simp [untokenize]
  | some a :: p => simp [untokenize]

theorem chunkIsStardsl_spec {e : ℕ} (hq : AllLetters Literal q) (h : ChunkAt s b e (untokenize q))
    (hne : q ≠ []) : chunkIsStardsl s b e = isLoneStar q := by
  match q with
  | [] => exact absurd rfl hne
  | some a :: q =>
    have ha : a ≠ dsl0 := (hq a (by simp)).2.2.1
    rw [chunkIsStardsl, h.head]
    simp [isLoneStar, ha]
  | [none] =>
    have hexhausted := h.tail.tail.exhausted_iff
    rw [chunkIsStardsl, h.head, isLoneStar, beq_self_eq_true, Bool.true_and]
    exact hexhausted
  | none :: a :: q =>
    have hexhausted := h.tail.tail.exhausted_iff
    have hrest : (untokenize (a :: q)).isEmpty = false := by
      rw [Bool.eq_false_iff, ne_eq, List.isEmpty_iff, untokenize_eq_nil_iff]
      simp
    rw [hrest] at hexhausted
    rw [chunkIsStardsl, h.head, isLoneStar, beq_self_eq_true, Bool.true_and]
    · exact hexhausted
    · simp

theorem forward_entered_iff (hl : ChunkAt l lb le (untokenize p))
    (hr : ChunkAt r rb re (untokenize q)) :
    (lb < le ∧ rb < re ∧ byteAt l lb ≠ delimiter ∧ byteAt r rb ≠ delimiter) ↔ p ≠ [] ∧ q ≠ [] := by
  have hp : (lb < le ∧ byteAt l lb ≠ delimiter) ↔ p ≠ [] := by
    rw [hl.entered_iff, ne_eq, untokenize_eq_nil_iff]
  have hq : (rb < re ∧ byteAt r rb ≠ delimiter) ↔ q ≠ [] := by
    rw [hr.entered_iff, ne_eq, untokenize_eq_nil_iff]
  rw [← hp, ← hq]
  tauto

theorem isEmpty_untokenize (p : List (Option UInt8)) : (untokenize p).isEmpty = p.isEmpty := by
  rw [Bool.eq_iff_iff, List.isEmpty_iff, List.isEmpty_iff, untokenize_eq_nil_iff]

/-- The tests behind the forward scan, when one of the chunks is used up. -/
theorem chunkForwardLoop_exhausted (op : MatchOp) (hp : AllLetters Literal p)
    (hq : AllLetters Literal q) (hl : ChunkAt l lb le (untokenize p))
    (hr : ChunkAt r rb re (untokenize q)) (h : p = [] ∨ q = []) :
    ForwardAnswer (chunkForwardLoop op l le r re lb rb) (tokenForward op.typeIntersects p q)
      (lb + (untokenize p).length) (rb + (untokenize q).length) := by
  rw [chunkForwardLoop, if_neg (by rw [forward_entered_iff hl hr]; tauto)]
  simp only [hl.exhausted_iff, hr.exhausted_iff, isEmpty_untokenize]
  match p, q with
  | [], [] => exact forwardAnswer_yes lb rb
  | [], b :: q =>
    have hstar := chunkIsStardsl_spec hq hr (by simp)
    rw [hstar]
    by_cases hboth : op.typeIntersects = true ∧ isLoneStar (b :: q) = true
    · obtain ⟨hop, hlone⟩ := hboth
      rw [isLoneStar_iff] at hlone
      rw [hlone, hop]
      exact forwardAnswer_yes lb (rb + dslLen)
    · have hfalse : (op.typeIntersects && isLoneStar (b :: q)) = false := by simpa using hboth
      have hanswer : tokenForward op.typeIntersects [] (b :: q) = false := by
        simp only [tokenForward, stripFront, isEmpty_cons, Bool.false_or, hfalse]
        rfl
      rw [hanswer]
      simp only [isEmpty_nil, isEmpty_cons, Bool.and_false,
        Bool.and_true, Bool.false_and, hfalse, Bool.false_eq_true, if_false]
      exact forwardAnswer_no rfl _ _
  | a :: p, [] =>
    have hstar := chunkIsStardsl_spec hp hl (by simp)
    rw [hstar]
    by_cases hlone : isLoneStar (a :: p) = true
    · rw [isLoneStar_iff] at hlone
      rw [hlone]
      cases op <;> exact forwardAnswer_yes (lb + dslLen) rb
    · have hanswer : tokenForward op.typeIntersects (a :: p) [] = false := by
        simp only [tokenForward, stripFront, hlone]
        rfl
      rw [hanswer]
      simp only [isEmpty_nil, isEmpty_cons, Bool.and_true, Bool.and_false,
        Bool.false_and, hlone, Bool.false_eq_true, if_false]
      exact forwardAnswer_no rfl _ _
  | a :: p, b :: q => simp at h

theorem add_length_untokenize_star (b : ℕ) (p : List (Option UInt8)) :
    b + (untokenize (none :: p)).length = b + 1 + 1 + (untokenize p).length := by
  simp only [untokenize, length_cons]
  omega

theorem add_length_untokenize_letter (b : ℕ) (a : UInt8) (p : List (Option UInt8)) :
    b + (untokenize (some a :: p)).length = b + 1 + (untokenize p).length := by
  simp only [untokenize, length_cons]
  omega

theorem chunkForwardLoop_spec (op : MatchOp) (hp : AllLetters Literal p) (hq : AllLetters Literal q)
    (hl : ChunkAt l lb le (untokenize p)) (hr : ChunkAt r rb re (untokenize q)) :
    ForwardAnswer (chunkForwardLoop op l le r re lb rb) (tokenForward op.typeIntersects p q)
      (lb + (untokenize p).length) (rb + (untokenize q).length) := by
  induction p generalizing q lb rb with
  | nil => exact chunkForwardLoop_exhausted op hp hq hl hr (Or.inl rfl)
  | cons a p ih =>
    match a, q with
    | a, [] => exact chunkForwardLoop_exhausted op hp hq hl hr (Or.inr rfl)
    | none, b :: q =>
      rw [chunkForwardLoop, if_pos ((forward_entered_iff hl hr).mpr ⟨by simp, by simp⟩), hl.head,
        if_pos rfl]
      have hrest := chunkForwardBackward_spec op (hp.of_subset (subset_cons_self _ _)) hq
        hl.tail.tail hr
      rw [add_length_untokenize_star]
      exact hrest
    | some a, none :: q =>
      have ha : a ≠ dsl0 := (hp a (by simp)).2.2.1
      rw [chunkForwardLoop, if_pos ((forward_entered_iff hl hr).mpr ⟨by simp, by simp⟩), hl.head,
        hr.head, if_neg ha]
      by_cases hboth : op.typeIntersects = true
      · -- the star is on the right: the same scan with the sides exchanged
        rw [if_pos ⟨hboth, rfl⟩]
        have hrest := chunkForwardBackward_spec op (hq.of_subset (subset_cons_self _ _)) hp
          hr.tail.tail hl
        have hanswer : tokenForward op.typeIntersects (some a :: p) (none :: q) =
            (stripBack op.typeIntersects (· == ·) (fun _ ↦ true)
              (fun p q ↦ some (tokenOnStar op.typeIntersects id p q)) q.reverse
                (some a :: p).reverse == some true) := by
          rw [tokenForward, stripFront, if_pos hboth]
        rw [hanswer]
        refine ⟨hrest.result, fun h ↦ ?_⟩
        obtain ⟨hq', hp'⟩ := hrest.pointers h
        rw [add_length_untokenize_star]
        exact ⟨hp', hq'⟩
      · rw [if_neg (fun h ↦ hboth h.1), if_pos ha]
        have hanswer : tokenForward op.typeIntersects (some a :: p) (none :: q) = false := by
          rw [tokenForward, stripFront, if_neg hboth]
          rfl
        rw [hanswer]
        exact forwardAnswer_no rfl _ _
    | some a, some b :: q =>
      have ha : a ≠ dsl0 := (hp a (by simp)).2.2.1
      have hb : b ≠ dsl0 := (hq b (by simp)).2.2.1
      rw [chunkForwardLoop, if_pos ((forward_entered_iff hl hr).mpr ⟨by simp, by simp⟩), hl.head,
        hr.head, if_neg ha, if_neg (fun h ↦ hb h.2)]
      by_cases hab : a = b
      · rw [if_neg (not_not_intro hab)]
        have hrest := ih (hp.of_subset (subset_cons_self _ _))
          (hq.of_subset (subset_cons_self _ _)) hl.tail hr.tail
        have hanswer : tokenForward op.typeIntersects (some a :: p) (some b :: q) =
            tokenForward op.typeIntersects p q := by
          rw [tokenForward, stripFront, if_pos (beq_iff_eq.mpr hab), tokenForward]
        rw [hanswer]
        rw [add_length_untokenize_letter, add_length_untokenize_letter]
        exact hrest
      · rw [if_pos hab]
        have hanswer : tokenForward op.typeIntersects (some a :: p) (some b :: q) = false := by
          rw [tokenForward, stripFront, if_neg (mt beq_iff_eq.mp hab)]
          rfl
        rw [hanswer]
        exact forwardAnswer_no rfl _ _

/-! ### Whole chunks, forward -/

theorem beq_verbatim_of_reads (h : Reads s b c) (hne : c ≠ []) :
    (byteAt s b == verbatim) = decide (StartsVerbatim c) := by
  cases c with
  | nil => exact absurd rfl hne
  | cons a c =>
    rw [h.1]
    by_cases ha : a = verbatim <;> simp [StartsVerbatim, ha]

theorem bne_verbatim_of_reads {d : Bytes} (hl : Reads l lb c) (hr : Reads r rb d) (hc : c ≠ [])
    (hd : d ≠ []) :
    ((byteAt l lb == verbatim) != (byteAt r rb == verbatim)) = !verbatimAgree c d := by
  rw [beq_verbatim_of_reads hl hc, beq_verbatim_of_reads hr hd, verbatimAgree]
  by_cases h₁ : StartsVerbatim c <;> by_cases h₂ : StartsVerbatim d <;> simp [h₁, h₂]

theorem CanonicalLetter.ne_nil (h : CanonicalLetter c) : c ≠ [] := by
  rcases h with rfl | h
  · simp [starChunk]
  · exact h.1

/-- The first byte of a chunk is a `*` only in the chunks `*` and `**`. -/
theorem head_ne_star (hc : AllLetters Literal (tokenize c)) {a : UInt8} (ha : c.head? = some a) :
    a ≠ star := by
  rw [← untokenize_tokenize c] at ha
  match htok : tokenize c with
  | [] => simp [htok, untokenize] at ha
  | none :: p =>
    rw [htok, untokenize, List.head?_cons, some.injEq] at ha
    subst ha
    decide
  | some b :: p =>
    rw [htok, untokenize, List.head?_cons, some.injEq] at ha
    subst ha
    exact (hc b (by simp [htok])).2.2.2

theorem beq_star_of_reads (h : Reads s b c) (hc : CanonicalLetter c) :
    (byteAt s b == star) = (c == starChunk) := by
  rcases hc with rfl | ⟨hne, hlit, -⟩
  · rw [h.1]
    rfl
  · cases c with
    | nil => exact absurd rfl hne
    | cons a c =>
      have ha : a ≠ star := head_ne_star hlit (by simp)
      rw [h.1, beq_false_of_ne ha]
      simp [starChunk, ha]

/-- A `*` chunk is not taken for a `**`. -/
theorem not_superwild_of_chunkAt {e : ℕ} (h : ChunkAt s b e c) (hc : CanonicalLetter c) :
    (byteAt s b == star && decide (b + 2 ≤ e) && byteAt s (b + 1) == star) = false := by
  rw [beq_star_of_reads h.reads hc]
  by_cases hstar : c = starChunk
  · subst hstar
    rcases h.stop with hstop | ⟨-, hdel⟩
    · have : ¬ b + 2 ≤ e := by
        simp only [starChunk, length_cons, length_nil] at hstop
        omega
      simp [this]
    · simp only [starChunk, length_cons, length_nil] at hdel
      rw [hdel]
      simp [delimiter, star]
  · simp [hstar]

theorem superwild_of_chunkAt {e : ℕ} (h : ChunkAt s b e doubleStar) :
    (byteAt s b == star && decide (b + 2 ≤ e) && byteAt s (b + 1) == star) = true := by
  have hle := h.le
  simp only [doubleStar, length_cons, length_nil] at hle
  rw [h.reads.1, h.reads.2.1]
  simp [hle]

theorem chunkForward_leftSuperwild (op : MatchOp) (rb re : ℕ) (hl : ChunkAt l lb le doubleStar) :
    (chunkForward op l lb le r rb re).result = .leftSuperwild := by
  simp only [chunkForward, superwild_of_chunkAt hl, if_true]

theorem chunkForward_rightSuperwild (op : MatchOp) (hc : CanonicalLetter c) (hl : ChunkAt l lb le c)
    (hr : ChunkAt r rb re doubleStar) : (chunkForward op l lb le r rb re).result =
      if op.typeIncludes then .no else .rightSuperwild := by
  simp only [chunkForward, not_superwild_of_chunkAt hl hc, superwild_of_chunkAt hr, if_true,
    Bool.false_eq_true, if_false]
  split_ifs <;> rfl

/-- The forward matcher on two chunks other than `**`. -/
theorem chunkForward_spec (op : MatchOp) {d : Bytes} (hc : CanonicalLetter c)
    (hd : CanonicalLetter d) (hl : ChunkAt l lb le c) (hr : ChunkAt r rb re d) :
    ForwardAnswer (chunkForward op l lb le r rb re) (chunkFwd op c d) (lb + c.length)
      (rb + d.length) := by
  simp only [chunkForward, not_superwild_of_chunkAt hl hc, not_superwild_of_chunkAt hr hd,
    bne_verbatim_of_reads hl.reads hr.reads hc.ne_nil hd.ne_nil, Bool.false_eq_true, if_false]
  simp only [beq_star_of_reads hl.reads hc, beq_star_of_reads hr.reads hd]
  rw [chunkFwd]
  by_cases hagree : verbatimAgree c d = true
  swap
  · simp only [hagree]
    exact forwardAnswer_no rfl _ _
  rw [hagree, Bool.true_and]
  by_cases hcs : c = starChunk
  · subst hcs
    rw [hr.chunkEnd_eq]
    exact forwardAnswer_yes (lb + 1) (rb + d.length)
  have hcs' : (c == starChunk) = false := beq_false_of_ne hcs
  rw [hcs', Bool.false_or]
  by_cases hds : d = starChunk
  · subst hds
    cases op with
    | includes => exact forwardAnswer_no rfl _ _
    | intersects =>
      rw [hl.chunkEnd_eq]
      exact forwardAnswer_yes (lb + c.length) (rb + 1)
  have hds' : (d == starChunk) = false := beq_false_of_ne hds
  rw [hds', if_neg hds]
  have hlitC := (hc.resolve_left hcs).2.1
  have hlitD := (hd.resolve_left hds).2.1
  have hloop := chunkForwardLoop_spec op hlitC hlitD
    (by rwa [untokenize_tokenize] : ChunkAt l lb le (untokenize (tokenize c)))
    (by rwa [untokenize_tokenize] : ChunkAt r rb re (untokenize (tokenize d)))
  rw [untokenize_tokenize, untokenize_tokenize] at hloop
  exact hloop

end ZenohPico.Keyexpr
