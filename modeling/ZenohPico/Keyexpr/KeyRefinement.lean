import ZenohPico.Foundations.StripRun
import ZenohPico.Keyexpr.KeyReading
import ZenohPico.Keyexpr.Match

/-!
The key expression matchers as functions of the two lists of chunks they are given. `keySpecial`,
`keyPlain`, `keyParts` and `keyVerbatim` are written over patterns whose letters are chunks and
whose star is `**`, and answer `none` where the loop they stand for never ends. The theorems say
that the pointer code computes them.
-/

namespace ZenohPico.Keyexpr

open Foundations List Option

/-! ### The matchers on patterns -/

/-- The forward match of a chunk with an entry of the other pattern; a `**` matches no chunk. -/
def fwdEntry (op : MatchOp) (c : Bytes) : Option Bytes → Bool
  | none => false
  | some d => chunkFwd op c d

/-- What `_z_keyexpr_special` does for a middle `p` between two `**`. Once the first run of chunks
between two `**` is found, the loop does not get past the `**` behind it. -/
def keySpecial (op : MatchOp) (p Q : List (Option Bytes)) : Option Bool :=
  if op.typeIntersects && Q.any Option.isNone then some true
  else
    if (searchSegment (fwdEntry op) (segments p).headI Q).isNone then some false
    else if (segments p).tail.isEmpty then some true
    else none

/-- What is done between two `**` when there are no verbatim chunks. -/
def keyOnStar (op : MatchOp) (P Q : List (Option Bytes)) : Option Bool :=
  if endsInStar P then keySpecial op P.dropLast Q else some true

/-- `_z_keyexpr_forward` on key expressions without verbatim chunks. -/
def keyPlain (op : MatchOp) (P Q : List (Option Bytes)) : Option Bool :=
  stripFront op.typeIntersects (chunkFwd op) (chunkBwd op) clean (keyOnStar op) P Q

/-- The test for what is left over on both sides. -/
def keyLeftovers (op : MatchOp) (P Q : List (Option Bytes)) : Bool :=
  (P.isEmpty || isLoneStar P) && (Q.isEmpty || (op.typeIntersects && isLoneStar Q))

/-- Cut a pattern at its first chunk with an `@`. -/
def cutVerbatim : List (Option Bytes) → Option (List (Option Bytes) × Bytes × List (Option Bytes))
  | [] => none
  | none :: P => (cutVerbatim P).map fun cut ↦ (none :: cut.1, cut.2)
  | some c :: P =>
    if verbatim ∈ c then some ([], c, P)
    else (cutVerbatim P).map fun cut ↦ (some c :: cut.1, cut.2)

variable {A B : List (Option Bytes)} {v c : Bytes} {o : Option (Option (ℕ × ℕ))}

theorem map_cutVerbatim_eq_some {a : Option Bytes} {P : List (Option Bytes)}
    (h : (cutVerbatim P).map (fun cut ↦ (a :: cut.1, cut.2)) = some (A, v, B)) :
    ∃ A', A = a :: A' ∧ cutVerbatim P = some (A', v, B) := by
  obtain ⟨⟨A', v', B'⟩, hcut, heq⟩ := map_eq_some_iff.mp h
  simp only [Prod.mk.injEq] at heq
  obtain ⟨rfl, rfl, rfl⟩ := heq
  exact ⟨A', rfl, hcut⟩

theorem cutVerbatim_eq_some {P : List (Option Bytes)} (h : cutVerbatim P = some (A, v, B)) :
    P = A ++ some v :: B ∧ clean A = true ∧ verbatim ∈ v := by
  induction P generalizing A with
  | nil => simp [cutVerbatim] at h
  | cons a P ih =>
    cases a with
    | none =>
      rw [cutVerbatim] at h
      obtain ⟨A, rfl, hcut⟩ := map_cutVerbatim_eq_some h
      obtain ⟨rfl, hclean, hv⟩ := ih hcut
      refine ⟨rfl, ?_, hv⟩
      rw [clean_iff] at hclean ⊢
      simpa [entryBytes, doubleStar, verbatim, star] using hclean
    | some c =>
      rw [cutVerbatim] at h
      split_ifs at h with hc
      · simp only [some.injEq, Prod.mk.injEq] at h
        obtain ⟨rfl, rfl, rfl⟩ := h
        exact ⟨rfl, rfl, hc⟩
      · obtain ⟨A, rfl, hcut⟩ := map_cutVerbatim_eq_some h
        obtain ⟨rfl, hclean, hv⟩ := ih hcut
        refine ⟨rfl, ?_, hv⟩
        rw [clean_iff] at hclean ⊢
        simp only [mem_cons, forall_eq_or_imp]
        exact ⟨hc, hclean⟩

theorem cutVerbatim_eq_none_iff {P : List (Option Bytes)} :
    cutVerbatim P = none ↔ clean P = true := by
  induction P with
  | nil => simp [cutVerbatim, clean]
  | cons a P ih =>
    cases a with
    | none =>
      rw [cutVerbatim, map_eq_none_iff, ih]
      simp [clean, entryBytes, doubleStar, verbatim, star]
    | some c =>
      rw [cutVerbatim]
      split_ifs with hc
      · simp [clean, entryBytes, hc]
      · rw [map_eq_none_iff, ih]
        simp [clean, entryBytes, hc]

/-- `_z_keyexpr_parts`: compare the parts between verbatim chunks one by one. -/
def keyParts (op : MatchOp) (P Q : List (Option Bytes)) : Option Bool :=
  if P.isEmpty || Q.isEmpty then some (keyLeftovers op P Q)
  else
    match _h : cutVerbatim P, cutVerbatim Q with
    | none, none => keyPlain op P Q
    | some (A, v, B), some (C, u, D) =>
      (keyPlain op A C).bind fun matched ↦
        if matched && chunkFwd op v u then keyParts op B D else some false
    | _, _ => some false
termination_by P.length
decreasing_by
  obtain ⟨rfl, -⟩ := cutVerbatim_eq_some (by assumption)
  simp only [length_append, length_cons]
  omega

/-- `_z_keyexpr_forward` on key expressions that may hold verbatim chunks. -/
def keyVerbatim (op : MatchOp) (P Q : List (Option Bytes)) : Option Bool :=
  stripFront op.typeIntersects (chunkFwd op) (chunkBwd op) clean
    (fun P Q ↦ keyParts op (none :: P) Q) P Q

/-! ### Searching for a run of chunks -/

/-- How the inner loop of `_z_keyexpr_special` is left: not at all found, or behind the run on the
left and at the chunks that follow it on the right. -/
def SegmentOutcome (lcend : ℕ) (r : Bytes) (rend : ℕ) :
    Option (List (Option Bytes)) → Option (ℕ × ℕ) → Prop
  | none, o => o = none
  | some rest, o => ∃ x, o = some (lcend + 1, x) ∧ KeyAt r x rend rest

section Segment

variable (op : MatchOp) {l r : Bytes} {lb lce re : ℕ}

variable {lc rc : ℕ} {seg : List Bytes}

/-- The entry at the front of the right region, against a chunk. -/
theorem chunkForward_entry {b : Option Bytes} {Q : List (Option Bytes)}
    (hl : KeyAt l lc lce (some c :: seg.map some)) (hr : KeyAt r rc re (b :: Q)) :
    ((chunkForward op l lc lce r rc re).result = .yes ↔ fwdEntry op c b = true) ∧
      (fwdEntry op c b = true → (chunkForward op l lc lce r rc re).lend = lc + c.length ∧
        (chunkForward op l lc lce r rc re).rend = rc + (entryBytes b).length) ∧
      (chunkForward op l lc lce r rc re).result ≠ .outside := by
  have hc := (hl.letters c (by simp)).1
  cases b with
  | none =>
    rw [chunkForward_rightSuperwild op hc hl.front hr.front]
    cases op <;> simp [fwdEntry, MatchOp.typeIncludes, MatchOp.typeIntersects]
  | some d =>
    have hspec := chunkForward_spec op hc (hr.letters d (by simp)).1 hl.front hr.front
    rw [hspec.result, fwdEntry]
    refine ⟨?_, hspec.pointers, ?_⟩
    · cases chunkFwd op c d <;> simp [ChunkMatchResult.ofBool]
    · cases chunkFwd op c d <;> simp [ChunkMatchResult.ofBool]

/-- The run is at the front of what is left: the loop is left behind it. -/
theorem segment_found {rb : ℕ} {Q rest : List (Option Bytes)} (hl : KeyAt l lc lce (seg.map some))
    (hlc : seg = [] → lc = lce + 1) (hr : KeyAt r rc re Q)
    (h : dropSegment (fwdEntry op) seg Q = some rest) :
    ∃ x, LoopComputes (fun _ ↦ specialSegmentPass op l lb lce r re) (lc, rb, rc)
      (some (some (lce + 1, x))) ∧ KeyAt r x re rest := by
  induction seg generalizing lc rc Q with
  | nil =>
    obtain rfl : Q = rest := by simpa [dropSegment] using h
    refine ⟨rc, loopComputes_exit fun _ ↦ ?_, hr⟩
    rw [hlc rfl]
    simp [specialSegmentPass]
  | cons c seg ih =>
    cases Q with
    | nil => simp [dropSegment] at h
    | cons b Q =>
      rw [dropSegment] at h
      split_ifs at h with hcb
      have hentry := chunkForward_entry op hl hr
      obtain ⟨hlend, hrend⟩ := hentry.2.1 hcb
      have hpass : ∀ n : ℕ, (fun _ ↦ specialSegmentPass op l lb lce r re) n (lc, rb, rc) =
          some (.next (lc + c.length + 1, rb, rc + (entryBytes b).length + 1)) := by
        intro n
        simp only [specialSegmentPass]
        rw [if_pos (hl.lt_iff.mpr (by simp)), if_neg (by have := hr.lt_iff.mpr (by simp); omega),
          if_pos (hentry.1.mpr hcb), hlend, hrend]
        rfl
      obtain ⟨x, hx, hrest⟩ := ih hl.tail (by
        rintro rfl
        have hlen := (hl.reads (by simp)).2
        simp only [map_cons, map_nil, keyText_singleton] at hlen
        omega) hr.tail h
      exact ⟨x, loopComputes_next (computes_const hpass) hx, hrest⟩

/-- The run is not at the front of what is left: the search restarts one chunk further on the
right, or ends when the right side is used up. -/
theorem segment_missed {rb : ℕ} {Q : List (Option Bytes)} (hl : KeyAt l lc lce (seg.map some))
    (hr : KeyAt r rc re Q) (h : dropSegment (fwdEntry op) seg Q = none)
    (hnext : LoopComputes (fun _ ↦ specialSegmentPass op l lb lce r re)
      (lb, chunkEnd r rb re + 1, chunkEnd r rb re + 1) o)
    (hshort : Q.length < seg.length → o = some none) :
    LoopComputes (fun _ ↦ specialSegmentPass op l lb lce r re) (lc, rb, rc) o := by
  induction seg generalizing lc rc Q with
  | nil => simp [dropSegment] at h
  | cons c seg ih =>
    have hlt := hl.lt_iff.mpr (by simp)
    cases Q with
    | nil =>
      rw [hshort (by simp)]
      refine loopComputes_exit fun _ ↦ ?_
      simp only [specialSegmentPass]
      rw [if_pos hlt, if_pos (hr.passed rfl)]
    | cons b Q =>
      have hrlt := hr.lt_iff.mpr (by simp)
      have hentry := chunkForward_entry op hl hr
      rw [dropSegment] at h
      split_ifs at h with hcb
      · obtain ⟨hlend, hrend⟩ := hentry.2.1 hcb
        have hpass : ∀ n : ℕ, (fun _ ↦ specialSegmentPass op l lb lce r re) n (lc, rb, rc) =
            some (.next (lc + c.length + 1, rb, rc + (entryBytes b).length + 1)) := by
          intro n
          simp only [specialSegmentPass]
          rw [if_pos hlt, if_neg (by omega), if_pos (hentry.1.mpr hcb), hlend, hrend]
          rfl
        exact loopComputes_next (computes_const hpass)
          (ih hl.tail hr.tail h (fun hlen ↦ hshort (by simpa using hlen)))
      · have hpass : ∀ n : ℕ, (fun _ ↦ specialSegmentPass op l lb lce r re) n (lc, rb, rc) =
            some (.next (lb, chunkEnd r rb re + 1, chunkEnd r rb re + 1)) := by
          intro n
          simp only [specialSegmentPass]
          rw [if_pos hlt, if_neg (by omega), if_neg (mt hentry.1.mp hcb), if_neg hentry.2.2]
          rfl
        exact loopComputes_next (computes_const hpass) hnext

/-- The inner loop of `_z_keyexpr_special` looks for the leftmost occurrence of a run of chunks. -/
theorem segment_spec {rb : ℕ} {Q : List (Option Bytes)} (hne : seg ≠ [])
    (hl : KeyAt l lb lce (seg.map some)) (hr : KeyAt r rb re Q) :
    ∃ o, LoopComputes (fun _ ↦ specialSegmentPass op l lb lce r re) (lb, rb, rb) (some o) ∧
      SegmentOutcome lce r re (searchSegment (fwdEntry op) seg Q) o := by
  have hlc : seg = [] → lb = lce + 1 := fun h ↦ absurd h hne
  induction Q generalizing rb with
  | nil =>
    refine ⟨none, loopComputes_exit fun _ ↦ ?_, ?_⟩
    · simp only [specialSegmentPass]
      rw [if_pos (hl.lt_iff.mpr (by simpa using hne)), if_pos (hr.passed rfl)]
    · rw [searchSegment_eq_none_of_length (by simpa using length_pos_of_ne_nil hne)]
      rfl
  | cons b Q ih =>
    rw [searchSegment]
    rcases hdrop : dropSegment (fwdEntry op) seg (b :: Q) with _ | rest
    · have hrtail : KeyAt r (chunkEnd r rb re + 1) re Q := by
        rw [hr.front.chunkEnd_eq]
        exact hr.tail
      obtain ⟨o, ho, hout⟩ := ih hrtail
      refine ⟨o, segment_missed op hl hr hdrop ho ?_, hout⟩
      intro hlen
      simp only [length_cons] at hlen
      rw [searchSegment_eq_none_of_length (by omega)] at hout
      rw [show o = none from hout]
    · obtain ⟨x, hx, hrest⟩ := segment_found op hl hlc hr hdrop
      exact ⟨some (lce + 1, x), hx, x, rfl, hrest⟩

end Segment

/-! ### The special matcher -/

theorem specialPass_computes {op : MatchOp} {l r : Bytes} {lb le lce rb re : ℕ} (hlt : lb < le)
    (hlce : specialSegmentEnd l lb le = lce)
    (hinner : LoopComputes (fun _ ↦ specialSegmentPass op l lb lce r re) (lb, rb, rb) o) :
    Computes (fun n ↦ specialPass op l le r re n (lb, rb)) (o.map specialOutcome) := by
  have hmap := hinner.computes.map specialOutcome
  simp only [specialPass, if_pos hlt, hlce]
  exact hmap

/-- A state of the outer loop at a `**` is never left. -/
theorem special_stuck (op : MatchOp) {l r : Bytes} {lb le rb re : ℕ} {p : List (Option Bytes)}
    (hl : KeyAt l lb le (none :: p)) :
    LoopComputes (fun n ↦ specialPass op l le r re n) (lb, rb) none := by
  have hend : specialSegmentEnd l lb le = lb - 1 := by
    have hstar := KeyAt.nextDoubleStar_some (A := []) (B := p) hl (by simp)
    rw [specialSegmentEnd, hstar]
    rfl
  have hinner : LoopComputes (fun _ ↦ specialSegmentPass op l lb (lb - 1) r re) (lb, rb, rb)
      (some (some (lb, rb))) := by
    refine loopComputes_exit fun _ ↦ ?_
    simp only [specialSegmentPass]
    rw [if_neg (by omega)]
  exact loopComputes_fixed (specialPass_computes (hl.lt_iff.mpr (by simp)) hend hinner)

theorem special_spec (op : MatchOp) {l r : Bytes} {lb le rb re : ℕ} {p Q : List (Option Bytes)}
    (hp : p ≠ []) (hred : Reduced (none :: p)) (hl : KeyAt l lb le p) (hr : KeyAt r rb re Q) :
    Computes (fun n ↦ keyexprSpecial op n l lb le r rb re) (keySpecial op p Q) := by
  simp only [keyexprSpecial, hr.nextDoubleStar_isSome, keySpecial]
  by_cases hstar : (op.typeIntersects && Q.any Option.isNone) = true
  · simp only [hstar, if_true]
    exact computes_const fun _ ↦ rfl
  simp only [hstar, Bool.false_eq_true, if_false]
  refine LoopComputes.computes ?_
  have hlt := hl.lt_iff.mpr hp
  rcases segments_cases p with ⟨seg, rfl, hseg⟩ | ⟨seg, p', rfl, hseg⟩
  · -- a single run: the loop ends after one pass, or one more when the run is found
    have hend : specialSegmentEnd l lb le = le := by
      rw [specialSegmentEnd, hl.nextDoubleStar_none (by simp)]
    obtain ⟨o, hinner, hout⟩ := segment_spec op (by simpa using hp) hl hr
    have hpass := specialPass_computes hlt hend hinner
    rw [hseg, headI_cons]
    rcases hsearch : searchSegment (fwdEntry op) seg Q with _ | rest
    · rw [hsearch] at hout
      rw [show o = none from hout] at hpass
      exact loopComputes_done hpass
    · rw [hsearch] at hout
      obtain ⟨x, rfl, -⟩ := hout
      refine loopComputes_next hpass (loopComputes_exit fun _ ↦ ?_)
      simp only [specialPass]
      rw [if_neg (by omega)]
  · -- a `**` behind the first run: found, the run leads to a state that is never left
    have hsegne : seg ≠ [] := by
      rintro rfl
      simp [Reduced] at hred
    obtain ⟨-, hrest, hfront⟩ := hl.split
    have hpos : 0 < (leadText (seg.map some)).length := by
      rw [leadText_eq (by simpa using hsegne), length_append, length_singleton]
      omega
    rw [if_neg (by omega)] at hfront
    have hend : specialSegmentEnd l lb le = lb + (leadText (seg.map some)).length - 1 := by
      rw [specialSegmentEnd, KeyAt.nextDoubleStar_some hl (by simp)]
      rfl
    obtain ⟨o, hinner, hout⟩ := segment_spec op hsegne hfront hr
    have hpass := specialPass_computes hlt hend hinner
    rw [hseg, headI_cons]
    rcases hsearch : searchSegment (fwdEntry op) seg Q with _ | rest
    · rw [hsearch] at hout
      rw [show o = none from hout] at hpass
      exact loopComputes_done hpass
    · rw [hsearch] at hout
      obtain ⟨x, rfl, -⟩ := hout
      have htail : (segments p').isEmpty = false := by
        rw [Bool.eq_false_iff, ne_eq, List.isEmpty_iff]
        exact segments_ne_nil p'
      rw [tail_cons, htail]
      refine loopComputes_next hpass ?_
      rw [show lb + (leadText (seg.map some)).length - 1 + 1 = lb + (leadText (seg.map some)).length
        by omega]
      exact special_stuck op hrest

/-! ### The backward matcher -/

section BackwardPass

variable {op : MatchOp} {l r : Bytes} {lb le rb re : ℕ} {cv : Bool}
  {parts special : ℕ → ℕ → ℕ → ℕ → Option Bool}

theorem backwardPass_leftSuperwild (hlt : lb < le ∧ rb < re)
    (hres : (chunkBackward op l lb le r rb re).result = .leftSuperwild) :
    backwardPass op l lb r rb cv parts special (le, re) =
      (if cv then parts (lb - doubleStarLen - delimiterLen) le rb re
        else special lb (le - doubleStarLen - delimiterLen) rb re).map .done := by
  simp only [backwardPass]
  rw [if_pos hlt, hres]
  cases cv <;> rfl

theorem backwardPass_rightSuperwild (hlt : lb < le ∧ rb < re) (hop : op = .intersects)
    (hres : (chunkBackward op l lb le r rb re).result = .rightSuperwild) :
    backwardPass op l lb r rb cv parts special (le, re) =
      (if cv then parts (lb - doubleStarLen - delimiterLen) le rb re else some true).map .done := by
  simp only [backwardPass]
  rw [if_pos hlt, hres, hop]
  cases cv <;> rfl

theorem backwardPass_no (hlt : lb < le ∧ rb < re)
    (hres : (chunkBackward op l lb le r rb re).result = .no) :
    backwardPass op l lb r rb cv parts special (le, re) = some (.done false) := by
  simp only [backwardPass]
  rw [if_pos hlt, hres]

theorem backwardPass_yes {x y : ℕ} (hlt : lb < le ∧ rb < re)
    (hres : BackwardAnswer (chunkBackward op l lb le r rb re) true x y) :
    backwardPass op l lb r rb cv parts special (le, re) =
      if (lb == x && rb == y) = true then some (.done true)
      else if (lb == x) = true then
        some (.done (!cv || (keyexprGetNextVerbatimChunk r rb (y - 1)).isNone))
      else if (rb == y) = true then some (.done false)
      else some (.next (x - 1, y - 1)) := by
  obtain ⟨hlbegin, hrbegin⟩ := hres.pointers rfl
  simp only [backwardPass]
  rw [if_pos hlt, hres.result, hlbegin, hrbegin]
  rfl

end BackwardPass

theorem clean_of_subset {P Q : List (Option Bytes)} (hQ : clean Q = true) (h : P ⊆ Q) :
    clean P = true := by
  rw [clean_iff] at hQ ⊢
  exact fun a ha ↦ hQ a (h ha)

section Backward

variable (op : MatchOp) {l r : Bytes} {lb rb : ℕ} {cv : Bool}
  {parts special : ℕ → ℕ → ℕ → ℕ → ℕ → Option Bool}
  {onStar : List (Option Bytes) → List (Option Bytes) → Option Bool}
  {I : List (Option Bytes) → List (Option Bytes) → Prop}

/-- Assumes: the calls made at a `**` compute `onStar`. Then the loop takes chunks off the back of
both sides and answers as `stripBack`. -/
theorem backward_loop {P Q : List (Option Bytes)} {le re : ℕ} (hP : P ≠ []) (hQ : Q ≠ [])
    (hl : KeyAt l lb le P) (hr : KeyAt r rb re Q) (hred : Reduced (none :: P)) (hIPQ : I P Q)
    (hI : ∀ P Q c d, chunkBwd op c d = true → I (P ++ [some c]) (Q ++ [some d]) → I P Q)
    (hcv : ∀ P Q, I P Q → cv = false → clean Q = true)
    (hleft : ∀ P Q le re, Q ≠ [] → Reduced (none :: (P ++ [none])) → I (P ++ [none]) Q →
      KeyAt l lb le (P ++ [none]) → KeyAt r rb re Q →
        Computes (fun n ↦ if cv then parts n (lb - doubleStarLen - delimiterLen) le rb re
          else special n lb (le - doubleStarLen - delimiterLen) rb re) (onStar (P ++ [none]) Q))
    (hright : ∀ P Q c le re, op = .intersects → Reduced (none :: (P ++ [some c])) →
      I (P ++ [some c]) (Q ++ [none]) → KeyAt l lb le (P ++ [some c]) →
      KeyAt r rb re (Q ++ [none]) →
        Computes (fun n ↦ if cv then parts n (lb - doubleStarLen - delimiterLen) le rb re
          else some true) (onStar (P ++ [some c]) (Q ++ [none]))) :
    LoopComputes (fun n ↦ backwardPass op l lb r rb cv (parts n) (special n)) (le, re)
      (stripBack op.typeIntersects (chunkBwd op) clean onStar P.reverse Q.reverse) := by
  induction P using List.reverseRecOn generalizing Q le re with
  | nil => exact absurd rfl hP
  | append_singleton P a ih =>
    obtain ⟨Q, b, rfl⟩ : ∃ Q' b, Q = Q' ++ [b] := ⟨_, _, (dropLast_append_getLast hQ).symm⟩
    have hlt : lb < le ∧ rb < re := ⟨hl.lt_iff.mpr hP, hr.lt_iff.mpr hQ⟩
    obtain ⟨x, rfl, hax, hPnil, hPcons⟩ := hl.back
    obtain ⟨y, rfl, hby, hQnil, hQcons⟩ := hr.back
    rw [reverse_concat, reverse_concat]
    match a, b with
    | none, b =>
      have hcall := hleft P (Q ++ [b]) _ _ hQ hred hIPQ hl hr
      have hres := chunkBackward_leftSuperwild op rb (y + (entryBytes b).length) (r := r) hax
      rw [stripBack, reverse_cons, reverse_reverse, reverse_cons, reverse_reverse]
      refine loopComputes_done ?_
      simp only [backwardPass_leftSuperwild hlt hres]
      exact hcall.map Pass.done
    | some c, none =>
      have hc := (hl.letters c (by simp)).1
      have hres := chunkBackward_rightSuperwild op hc hax hby
      rw [stripBack]
      cases op with
      | includes => exact loopComputes_exit fun n ↦ backwardPass_no hlt hres
      | intersects =>
        have hcall := hright P Q c _ _ rfl hred hIPQ hl hr
        rw [if_pos (show MatchOp.intersects.typeIntersects = true from rfl), reverse_cons,
          reverse_reverse, reverse_cons, reverse_reverse]
        refine loopComputes_done ?_
        simp only [backwardPass_rightSuperwild hlt rfl hres]
        exact hcall.map Pass.done
    | some c, some d =>
      have hspec := chunkBackward_spec op (hl.letters c (by simp)).1 (hr.letters d (by simp)).1
        hax hby
      rw [stripBack]
      by_cases hcd : chunkBwd op c d = true
      swap
      · rw [Bool.not_eq_true] at hcd
        rw [hcd] at hspec
        rw [if_neg (by simp [hcd])]
        exact loopComputes_exit fun n ↦ backwardPass_no hlt hspec.result
      rw [hcd] at hspec
      rw [if_pos hcd]
      have hpass : ∀ n, backwardPass op l lb r rb cv (parts n) (special n)
          (x + (entryBytes (some c)).length, y + (entryBytes (some d)).length) = _ :=
        fun n ↦ backwardPass_yes hlt hspec
      have hIPQ' : I P Q := hI P Q c d hcd hIPQ
      rcases eq_or_ne P [] with rfl | hPne
      · have hx : (lb == x) = true := by simp [hPnil rfl]
        rcases eq_or_ne Q [] with rfl | hQne
        · have hy : (rb == y) = true := by simp [hQnil rfl]
          refine loopComputes_exit fun n ↦ ?_
          rw [hpass, hx, hy]
          rfl
        · -- the left side is used up: its leading `**` takes what is left on the right
          obtain ⟨hylt, hrQ⟩ := hQcons hQne
          have hy : (rb == y) = false := beq_false_of_ne (by omega)
          have hanswer : (!cv || clean Q) = clean Q := by
            cases cv with
            | true => rfl
            | false => rw [hcv _ _ hIPQ' rfl]; rfl
          rw [reverse_nil, stripBack, reverse_reverse]
          refine loopComputes_exit fun n ↦ ?_
          rw [hpass, hx, hy, hrQ.nextVerbatim_isNone, hanswer]
          rfl
      · obtain ⟨hxlt, hlP⟩ := hPcons hPne
        have hx : (lb == x) = false := beq_false_of_ne (by omega)
        rcases eq_or_ne Q [] with rfl | hQne
        · have hy : (rb == y) = true := by simp [hQnil rfl]
          obtain ⟨a, P', hP'⟩ := exists_cons_of_ne_nil (mt reverse_eq_nil_iff.mp hPne)
          rw [hP', reverse_nil, stripBack]
          · refine loopComputes_exit fun n ↦ ?_
            rw [hpass, hx, hy]
            rfl
        · obtain ⟨hylt, hrQ⟩ := hQcons hQne
          have hy : (rb == y) = false := beq_false_of_ne (by omega)
          have hred' : Reduced (none :: P) := by
            rw [← cons_append] at hred
            exact reduced_of_append_left hred
          refine loopComputes_next (computes_const fun n ↦ ?_) (ih hPne hQne hlP hrQ hred' hIPQ')
          rw [hpass, hx, hy]
          rfl

end Backward

/-! ### The forward matcher -/

theorem leftoversMatch_spec (op : MatchOp) {l r : Bytes} {lb le rb re : ℕ}
    {P Q : List (Option Bytes)} (hl : KeyAt l lb le P) (hr : KeyAt r rb re Q) :
    leftoversMatch op l lb le r rb re = keyLeftovers op P Q := by
  have hside : ∀ {s : Bytes} {b e : ℕ} {P : List (Option Bytes)} (both : Bool), KeyAt s b e P →
      (decide (e ≤ b) || (both && keyexprIsDoubleStar s b e)) =
        (P.isEmpty || (both && isLoneStar P)) := by
    intro s b e P both h
    rcases eq_or_ne P [] with rfl | hne
    · simp [h.passed rfl]
    · have hlt := h.lt_iff.mpr hne
      rw [h.isDoubleStar hne, decide_eq_false (by omega)]
      simp [hne]
  have hleft := hside true hl
  rw [Bool.true_and, Bool.true_and] at hleft
  rw [leftoversMatch, keyLeftovers, hleft, hside _ hr]

section ForwardPass

variable {op : MatchOp} {l r : Bytes} {lb le rb re : ℕ}
  {backwardLeft backwardRight : ℕ → ℕ → ℕ → ℕ → Option Bool}

theorem forwardPass_leftSuperwild (hlt : lb < le ∧ rb < re)
    (hres : (chunkForward op l lb le r rb re).result = .leftSuperwild) :
    forwardPass op l le r re backwardLeft backwardRight (lb, rb) =
      if lb + doubleStarLen = le then some (.done (keyexprGetNextVerbatimChunk r rb re).isNone)
      else (backwardLeft (lb + doubleStarLen + delimiterLen) le rb re).map .done := by
  simp only [forwardPass]
  rw [if_pos hlt, hres]

theorem forwardPass_rightSuperwild (hlt : lb < le ∧ rb < re) (hop : op = .intersects)
    (hres : (chunkForward op l lb le r rb re).result = .rightSuperwild) :
    forwardPass op l le r re backwardLeft backwardRight (lb, rb) =
      if rb + doubleStarLen = re then some (.done (keyexprGetNextVerbatimChunk l lb le).isNone)
      else (backwardRight (rb + doubleStarLen + delimiterLen) re lb le).map .done := by
  simp only [forwardPass]
  rw [if_pos hlt, hres, hop]
  rfl

theorem forwardPass_no (hlt : lb < le ∧ rb < re)
    (hres : (chunkForward op l lb le r rb re).result = .no) :
    forwardPass op l le r re backwardLeft backwardRight (lb, rb) = some (.done false) := by
  simp only [forwardPass]
  rw [if_pos hlt, hres]

theorem forwardPass_yes {x y : ℕ} (hlt : lb < le ∧ rb < re)
    (hres : ForwardAnswer (chunkForward op l lb le r rb re) true x y) :
    forwardPass op l le r re backwardLeft backwardRight (lb, rb) = some (.next (x + 1, y + 1)) := by
  obtain ⟨hlend, hrend⟩ := hres.pointers rfl
  simp only [forwardPass]
  rw [if_pos hlt, hres.result, hlend, hrend]
  rfl

theorem forwardPass_exhausted {P Q : List (Option Bytes)} (hl : KeyAt l lb le P)
    (hr : KeyAt r rb re Q) (h : P = [] ∨ Q = []) :
    forwardPass op l le r re backwardLeft backwardRight (lb, rb) =
      some (.done (keyLeftovers op P Q)) := by
  simp only [forwardPass]
  rw [if_neg, leftoversMatch_spec op hl hr]
  rw [hl.lt_iff, hr.lt_iff]
  tauto

end ForwardPass

section Forward

variable (op : MatchOp) {l r : Bytes} {le re : ℕ}
  {backwardLeft backwardRight : ℕ → ℕ → ℕ → ℕ → ℕ → Option Bool}
  {onStar : List (Option Bytes) → List (Option Bytes) → Option Bool}
  {I : List (Option Bytes) → List (Option Bytes) → Prop}

/-- A `**` at the front is the whole region exactly when nothing follows it. -/
theorem doubleStar_last_iff {s : Bytes} {b e : ℕ} {P : List (Option Bytes)}
    (h : KeyAt s b e (none :: P)) : b + doubleStarLen = e ↔ P = [] := by
  rcases eq_or_ne P [] with rfl | hne
  · have he := (h.reads (by simp)).2
    rw [keyText_singleton] at he
    exact iff_of_true he.symm rfl
  · have hlt := h.tail.lt_iff.mpr hne
    simp only [entryBytes, doubleStar, length_cons, length_nil] at hlt
    simp only [doubleStarLen, hne, iff_false]
    omega

/-- Assumes: the calls to the backward matcher compute `stripBack`. Then the loop takes chunks off
the front of both sides and answers as `stripFront`. -/
theorem forward_loop {P Q : List (Option Bytes)} {lb rb : ℕ}
    (hl : KeyAt l lb le P) (hr : KeyAt r rb re Q) (hrp : Reduced P) (hrq : Reduced Q)
    (hIPQ : I P Q)
    (hI : ∀ P Q c d, chunkFwd op c d = true → I (some c :: P) (some d :: Q) → I P Q)
    (hleft : ∀ P Q lb rb, P ≠ [] → Q ≠ [] → Reduced (none :: P) → Reduced Q → I (none :: P) Q →
      KeyAt l lb le (none :: P) → KeyAt r rb re Q →
        Computes (fun n ↦ backwardLeft n (lb + doubleStarLen + delimiterLen) le rb re)
          (stripBack op.typeIntersects (chunkBwd op) clean onStar P.reverse Q.reverse))
    (hright : ∀ P Q c lb rb, op = .intersects → Q ≠ [] → Reduced (some c :: P) →
      Reduced (none :: Q) → I (some c :: P) (none :: Q) → KeyAt l lb le (some c :: P) →
      KeyAt r rb re (none :: Q) →
        Computes (fun n ↦ backwardRight n (rb + doubleStarLen + delimiterLen) re lb le)
          (stripBack op.typeIntersects (chunkBwd op) clean onStar Q.reverse
            (some c :: P).reverse)) :
    LoopComputes (fun n ↦ forwardPass op l le r re (backwardLeft n) (backwardRight n)) (lb, rb)
      (stripFront op.typeIntersects (chunkFwd op) (chunkBwd op) clean onStar P Q) := by
  induction P generalizing Q lb rb with
  | nil =>
    rw [stripFront]
    refine loopComputes_exit fun n ↦ ?_
    rw [forwardPass_exhausted hl hr (Or.inl rfl)]
    simp [keyLeftovers]
  | cons a P ih =>
    cases Q with
    | nil =>
      rw [stripFront]
      refine loopComputes_exit fun n ↦ ?_
      rw [forwardPass_exhausted hl hr (Or.inr rfl)]
      simp [keyLeftovers]
    | cons b Q =>
      cases a with
      | none =>
        have hlt : lb < le ∧ rb < re := ⟨hl.lt_iff.mpr (by simp), hr.lt_iff.mpr (by simp)⟩
        have hres := chunkForward_leftSuperwild op rb re (r := r) hl.front
        rw [stripFront]
        rcases eq_or_ne P [] with rfl | hP
        · rw [reverse_nil, stripBack, reverse_reverse]
          refine loopComputes_exit fun n ↦ ?_
          rw [forwardPass_leftSuperwild hlt hres, if_pos ((doubleStar_last_iff hl).mpr rfl),
            hr.nextVerbatim_isNone]
        · have hcall := hleft P (b :: Q) lb rb hP (by simp) hrp hrq hIPQ hl hr
          refine loopComputes_done ?_
          simp only [forwardPass_leftSuperwild hlt hres, if_neg (mt (doubleStar_last_iff hl).mp hP)]
          exact hcall.map Pass.done
      | some c =>
        cases b with
        | none =>
          have hlt : lb < le ∧ rb < re := ⟨hl.lt_iff.mpr (by simp), hr.lt_iff.mpr (by simp)⟩
          have hres := chunkForward_rightSuperwild op (hl.letters c (by simp)).1 hl.front hr.front
          rw [stripFront]
          cases op with
          | includes => exact loopComputes_exit fun n ↦ forwardPass_no hlt hres
          | intersects =>
            rw [if_pos (show MatchOp.intersects.typeIntersects = true from rfl)]
            rcases eq_or_ne Q [] with rfl | hQ
            · rw [reverse_nil, stripBack, reverse_reverse]
              refine loopComputes_exit fun n ↦ ?_
              rw [forwardPass_rightSuperwild hlt rfl hres,
                if_pos ((doubleStar_last_iff hr).mpr rfl), hl.nextVerbatim_isNone]
            · have hcall := hright P Q c lb rb rfl hQ hrp hrq hIPQ hl hr
              refine loopComputes_done ?_
              simp only [forwardPass_rightSuperwild hlt rfl hres,
                if_neg (mt (doubleStar_last_iff hr).mp hQ)]
              exact hcall.map Pass.done
        | some d =>
          have hlt : lb < le ∧ rb < re := ⟨hl.lt_iff.mpr (by simp), hr.lt_iff.mpr (by simp)⟩
          have hspec := chunkForward_spec op (hl.letters c (by simp)).1 (hr.letters d (by simp)).1
            hl.front hr.front
          rw [stripFront]
          by_cases hcd : chunkFwd op c d = true
          · rw [hcd] at hspec
            rw [if_pos hcd]
            exact loopComputes_next (computes_const fun n ↦ forwardPass_yes hlt hspec)
              (ih hl.tail hr.tail hrp.tail hrq.tail (hI P Q c d hcd hIPQ))
          · rw [Bool.not_eq_true] at hcd
            rw [hcd] at hspec
            rw [if_neg (by simp [hcd])]
            exact loopComputes_exit fun n ↦ forwardPass_no hlt hspec.result

end Forward

/-! ### Key expressions without verbatim chunks -/

theorem backward_plain (op : MatchOp) {l r : Bytes} {lb le rb re : ℕ} {P Q : List (Option Bytes)}
    (hP : P ≠ []) (hQ : Q ≠ []) (hl : KeyAt l lb le P) (hr : KeyAt r rb re Q)
    (hred : Reduced (none :: P)) (hclean : clean Q = true) :
    Computes (fun n ↦ keyexprBackward op n l lb le r rb re false)
      (stripBack op.typeIntersects (chunkBwd op) clean (keyOnStar op) P.reverse Q.reverse) := by
  refine Computes.succ (by rw [keyexprBackward]) ?_
  simp only [keyexprBackward]
  refine LoopComputes.computes (backward_loop op hP hQ hl hr hred (I := fun _ Q ↦ clean Q = true)
    hclean (fun _ _ _ _ _ h ↦ clean_of_subset h (subset_append_left _ _))
    (fun _ _ h _ ↦ h) ?_ ?_)
  · intro P Q le re hQ hred _ hl hr
    have hP : P ≠ [] := by
      rintro rfl
      simp [Reduced] at hred
    obtain ⟨x, rfl, -, -, hPcons⟩ := hl.back
    obtain ⟨hlt, hlP⟩ := hPcons hP
    have hred' : Reduced (none :: P) := by
      rw [← cons_append] at hred
      exact reduced_of_append_left hred
    have hspec := special_spec op hP hred' hlP hr
    rw [keyOnStar, endsInStar_concat, if_pos isNone_none, dropLast_concat]
    have hend : x + (entryBytes none).length - doubleStarLen - delimiterLen = x - 1 := by
      simp only [entryBytes, doubleStar, length_cons, length_nil, doubleStarLen, delimiterLen]
      omega
    simpa only [Bool.false_eq_true, if_false, hend] using hspec
  · intro P Q c le re _ _ _ _ _
    rw [keyOnStar, endsInStar_concat]
    exact computes_const fun _ ↦ rfl

theorem forward_plain (op : MatchOp) {l r : Bytes} {lb le rb re : ℕ} {P Q : List (Option Bytes)}
    (hl : KeyAt l lb le P) (hr : KeyAt r rb re Q) (hrp : Reduced P) (hrq : Reduced Q)
    (hcp : clean P = true) (hcq : clean Q = true) :
    Computes (fun n ↦ keyexprForward op n l lb le r rb re false) (keyPlain op P Q) := by
  refine Computes.succ (by rw [keyexprForward]) ?_
  simp only [keyexprForward]
  refine LoopComputes.computes (forward_loop op hl hr hrp hrq
    (I := fun P Q ↦ clean P = true ∧ clean Q = true) ⟨hcp, hcq⟩
    (fun _ _ _ _ _ h ↦ ⟨clean_of_subset h.1 (subset_cons_self _ _),
      clean_of_subset h.2 (subset_cons_self _ _)⟩) ?_ ?_)
  · intro P Q lb rb hP hQ hrp _ hc hl hr
    exact backward_plain op hP hQ hl.tail hr hrp hc.2
  · intro P Q c lb rb _ hQ _ hrq hc hl hr
    exact backward_plain op hQ (cons_ne_nil _ _) hr.tail hl hrq hc.1

/-! ### Key expressions cut at their verbatim chunks -/

/-- `@` stands in a chunk of the pattern only as its first byte. -/
def VerbatimFirst (P : List (Option Bytes)) : Prop :=
  ∀ c, some c ∈ P → verbatim ∈ c → StartsVerbatim c

/-- Cutting both patterns at their first `@` cuts between chunks: there is no `@` on one side, or
every `@` opens a chunk. -/
def CutsWhole (P Q : List (Option Bytes)) : Prop :=
  clean P = true ∨ clean Q = true ∨ VerbatimFirst P ∧ VerbatimFirst Q

theorem CutsWhole.of_subset {P Q P' Q' : List (Option Bytes)} (h : CutsWhole P Q) (hP : P' ⊆ P)
    (hQ : Q' ⊆ Q) : CutsWhole P' Q' := by
  rcases h with h | h | ⟨h₁, h₂⟩
  · exact Or.inl (clean_of_subset h hP)
  · exact Or.inr (Or.inl (clean_of_subset h hQ))
  · exact Or.inr (Or.inr ⟨fun c hc ↦ h₁ c (hP hc), fun c hc ↦ h₂ c (hQ hc)⟩)

theorem CutsWhole.symm {P Q : List (Option Bytes)} (h : CutsWhole P Q) : CutsWhole Q P := by
  rcases h with h | h | ⟨h₁, h₂⟩
  · exact Or.inr (Or.inl h)
  · exact Or.inl h
  · exact Or.inr (Or.inr ⟨h₂, h₁⟩)

/-- Cutting both patterns at their first `@` cuts between chunks, and so it goes on as long as the
parts that are cut off match. Where only one side has an `@`, `Other` holds of that side. -/
inductive CutsAtChunks (op : MatchOp) (Other : List (Option Bytes) → Prop) :
    List (Option Bytes) → List (Option Bytes) → Prop
  | exhausted {P Q} (h : P = [] ∨ Q = []) : CutsAtChunks op Other P Q
  | both {P Q} (hP : clean P = true) (hQ : clean Q = true) : CutsAtChunks op Other P Q
  | left {P Q} (hP : clean P = true) (hQ : Other Q) : CutsAtChunks op Other P Q
  | right {P Q} (hP : Other P) (hQ : clean Q = true) : CutsAtChunks op Other P Q
  | cut {A B C D v u} (hA : clean A = true) (hC : clean C = true) (hv : StartsVerbatim v)
    (hu : StartsVerbatim u)
    (hrest : keyPlain op A C = some true → chunkFwd op v u = true → CutsAtChunks op Other B D) :
    CutsAtChunks op Other (A ++ some v :: B) (C ++ some u :: D)

theorem StartsVerbatim.mem (h : StartsVerbatim v) : verbatim ∈ v :=
  mem_of_mem_head? h

theorem reduced_of_append_right {α : Type*} {p q : List (Option α)} (h : Reduced (p ++ q)) :
    Reduced q :=
  List.IsChain.right_of_append h

theorem cutVerbatim_append (hA : clean A = true) (hv : verbatim ∈ v) :
    cutVerbatim (A ++ some v :: B) = some (A, v, B) := by
  induction A with
  | nil => rw [nil_append, cutVerbatim, if_pos hv]
  | cons a A ih =>
    have hrest := ih (clean_of_subset hA (subset_cons_self _ _))
    cases a with
    | none => rw [cons_append, cutVerbatim, hrest, map_some]
    | some c =>
      have hc : verbatim ∉ c := (clean_iff.mp hA) (some c) mem_cons_self
      rw [cons_append, cutVerbatim, if_neg hc, hrest, map_some]

section CutsAtChunks

variable {op : MatchOp} {Other : List (Option Bytes) → Prop} {P Q : List (Option Bytes)}

/-- Where both patterns are cut, it is in front of chunks that start with `@`. -/
theorem CutsAtChunks.of_cuts {C D : List (Option Bytes)} {u : Bytes} (h : CutsAtChunks op Other P Q)
    (hP : cutVerbatim P = some (A, v, B)) (hQ : cutVerbatim Q = some (C, u, D)) :
    StartsVerbatim v ∧ StartsVerbatim u ∧
      (keyPlain op A C = some true → chunkFwd op v u = true → CutsAtChunks op Other B D) := by
  have hcutP : clean P ≠ true := by
    rw [ne_eq, ← cutVerbatim_eq_none_iff, hP]
    exact some_ne_none _
  have hcutQ : clean Q ≠ true := by
    rw [ne_eq, ← cutVerbatim_eq_none_iff, hQ]
    exact some_ne_none _
  cases h with
  | exhausted h =>
    rcases h with rfl | rfl
    · exact absurd rfl hcutP
    · exact absurd rfl hcutQ
  | both hclean => exact absurd hclean hcutP
  | left hclean => exact absurd hclean hcutP
  | right _ hclean => exact absurd hclean hcutQ
  | cut hA hC hv hu hrest =>
    rw [cutVerbatim_append hA hv.mem] at hP
    rw [cutVerbatim_append hC hu.mem] at hQ
    obtain ⟨rfl, rfl, rfl⟩ : _ ∧ _ ∧ _ := by simpa using hP
    obtain ⟨rfl, rfl, rfl⟩ : _ ∧ _ ∧ _ := by simpa using hQ
    exact ⟨hv, hu, hrest⟩

theorem CutsWhole.cutsAtChunks (h : CutsWhole P Q) : CutsAtChunks op (fun _ ↦ True) P Q := by
  rcases h with h | h | ⟨hP, hQ⟩
  · exact .left h trivial
  · exact .right trivial h
  induction hlen : P.length using Nat.strong_induction_on generalizing P Q with
  | _ n ih =>
    rcases hcutP : cutVerbatim P with _ | ⟨A, v, B⟩
    · exact .left (cutVerbatim_eq_none_iff.mp hcutP) trivial
    rcases hcutQ : cutVerbatim Q with _ | ⟨C, u, D⟩
    · exact .right trivial (cutVerbatim_eq_none_iff.mp hcutQ)
    obtain ⟨rfl, hA, hv⟩ := cutVerbatim_eq_some hcutP
    obtain ⟨rfl, hC, hu⟩ := cutVerbatim_eq_some hcutQ
    refine .cut hA hC (hP v (by simp) hv) (hQ u (by simp) hu) fun _ _ ↦ ih B.length ?_ ?_ ?_ rfl
    · rw [← hlen, length_append, length_cons]
      omega
    · exact fun c hc ↦ hP c (by simp [hc])
    · exact fun c hc ↦ hQ c (by simp [hc])

end CutsAtChunks

section Parts

variable {op : MatchOp} {l r : Bytes} {lb le rb re : ℕ} {Other : List (Option Bytes) → Prop}

theorem partsPass_exhausted {forward : ℕ → ℕ → ℕ → ℕ → Option Bool} {P Q : List (Option Bytes)}
    (hl : KeyAt l lb le P) (hr : KeyAt r rb re Q) (h : P = [] ∨ Q = []) :
    partsPass op l le r re forward (lb, rb) = some (.done (keyLeftovers op P Q)) := by
  simp only [partsPass]
  rw [if_neg, leftoversMatch_spec op hl hr]
  rw [hl.lt_iff, hr.lt_iff]
  tauto

/-- The pass that compares a pair of parts and the verbatim chunks behind them. -/
theorem partsPass_cut {C D : List (Option Bytes)} {u : Bytes} {o : Option Bool}
    (hl : KeyAt l lb le (A ++ some v :: B)) (hr : KeyAt r rb re (C ++ some u :: D))
    (hA : clean A = true) (hC : clean C = true) (hv : StartsVerbatim v) (hu : StartsVerbatim u)
    (hforward : Computes (fun n ↦ keyexprForward op n l lb
      (if lb + (leadText A).length = lb then lb else lb + (leadText A).length - 1) r rb
      (if rb + (leadText C).length = rb then rb else rb + (leadText C).length - 1) false) o) :
    Computes (fun n ↦ partsPass op l le r re
      (fun lb le rb re ↦ keyexprForward op n l lb le r rb re false) (lb, rb))
      (o.bind fun matched ↦ if matched && chunkFwd op v u then
        some (.next (lb + (leadText A).length + v.length + 1,
          rb + (leadText C).length + u.length + 1))
        else some (.done false)) := by
  obtain ⟨-, hlv, -⟩ := hl.split
  obtain ⟨-, hru, -⟩ := hr.split
  have hspec := chunkForward_spec op (hlv.letters v (by simp)).1 (hru.letters u (by simp)).1
    hlv.front hru.front
  simp only [partsPass]
  rw [hl.nextVerbatim_some hA hv, hr.nextVerbatim_some hC hu]
  simp only [if_pos (And.intro (hl.lt_iff.mpr (by simp)) (hr.lt_iff.mpr (by simp))), delimiterLen]
  refine hforward.bind fun matched _ ↦ computes_const fun n ↦ ?_
  cases matched with
  | false => rfl
  | true =>
    rw [hspec.result, Bool.true_and]
    by_cases hvu : chunkFwd op v u = true
    · obtain ⟨hlend, hrend⟩ := hspec.pointers hvu
      simp only [hvu, hlend, hrend, if_true, ChunkMatchResult.ofBool]
    · simp only [hvu, ChunkMatchResult.ofBool, Bool.false_eq_true, if_false]

/-- The loop of `_z_keyexpr_parts`. -/
theorem parts_loop {P Q : List (Option Bytes)}
    (hl : KeyAt l lb le P) (hr : KeyAt r rb re Q) (hrp : Reduced P) (hrq : Reduced Q)
    (hcut : CutsAtChunks op Other P Q) : LoopComputes (fun n ↦ partsPass op l le r re
      (fun lb le rb re ↦ keyexprForward op n l lb le r rb re false)) (lb, rb)
        (keyParts op P Q) := by
  induction hlen : P.length using Nat.strong_induction_on generalizing P Q lb rb with
  | _ n ih =>
    rw [keyParts]
    by_cases hempty : (P.isEmpty || Q.isEmpty) = true
    · rw [if_pos hempty]
      simp only [Bool.or_eq_true, List.isEmpty_iff] at hempty
      exact loopComputes_exit fun n ↦ partsPass_exhausted hl hr hempty
    rw [if_neg hempty]
    simp only [Bool.or_eq_true, List.isEmpty_iff, not_or] at hempty
    have hlt : lb < le ∧ rb < re := ⟨hl.lt_iff.mpr hempty.1, hr.lt_iff.mpr hempty.2⟩
    have hnextP := hl.nextVerbatim_isNone
    have hnextQ := hr.nextVerbatim_isNone
    split
    case h_1 hP hQ =>
      rw [cutVerbatim_eq_none_iff] at hP hQ
      rw [hP, isNone_iff_eq_none] at hnextP
      rw [hQ, isNone_iff_eq_none] at hnextQ
      refine loopComputes_done ?_
      simp only [partsPass]
      rw [hnextP, hnextQ]
      simp only [if_pos hlt]
      exact (forward_plain op hl hr hrp hrq hP hQ).map Pass.done
    case h_2 A v B C u D hP hQ =>
      obtain ⟨rfl, hA, hv⟩ := cutVerbatim_eq_some hP
      obtain ⟨rfl, hC, hu⟩ := cutVerbatim_eq_some hQ
      obtain ⟨hsv, hsu, hbehind⟩ := hcut.of_cuts hP hQ
      obtain ⟨-, hlv, hlA⟩ := hl.split
      obtain ⟨-, hru, hrC⟩ := hr.split
      have hforward := forward_plain op hlA hrC (reduced_of_append_left hrp)
        (reduced_of_append_left hrq) hA hC
      have hpass := partsPass_cut hl hr hA hC hsv hsu hforward
      rcases hplain : keyPlain op A C with _ | matched
      · rw [hplain] at hpass
        exact loopComputes_stuck hpass
      · rw [hplain] at hpass
        simp only [bind_some] at hpass ⊢
        by_cases hmatch : (matched && chunkFwd op v u) = true
        · rw [if_pos hmatch] at hpass
          rw [if_pos hmatch]
          obtain ⟨rfl, hvu⟩ := Bool.and_eq_true_iff.mp hmatch
          refine loopComputes_next hpass (ih B.length ?_ hlv.tail hru.tail ?_ ?_
            (hbehind hplain hvu) rfl)
          · rw [← hlen]
            simp only [length_append, length_cons]
            omega
          · exact (reduced_of_append_right hrp).tail
          · exact (reduced_of_append_right hrq).tail
        · rw [if_neg hmatch] at hpass
          rw [if_neg hmatch]
          exact loopComputes_done hpass
    case h_3 hnone hsome =>
      -- an `@` on one side only
      refine loopComputes_exit fun n ↦ ?_
      simp only [partsPass]
      rw [if_pos hlt]
      split
      case h_1 hv hu =>
        rw [hv, isNone_none, eq_comm, ← cutVerbatim_eq_none_iff] at hnextP
        rw [hu, isNone_none, eq_comm, ← cutVerbatim_eq_none_iff] at hnextQ
        exact absurd hnextQ (hnone hnextP)
      case h_2 x y hv hu =>
        rw [hv, isNone_some, eq_comm, ← Bool.not_eq_true, ← cutVerbatim_eq_none_iff] at hnextP
        rw [hu, isNone_some, eq_comm, ← Bool.not_eq_true, ← cutVerbatim_eq_none_iff] at hnextQ
        obtain ⟨⟨A, v, B⟩, hA⟩ := ne_none_iff_exists'.mp hnextP
        obtain ⟨⟨C, u, D⟩, hC⟩ := ne_none_iff_exists'.mp hnextQ
        exact (hsome A v B C u D hA hC).elim
      case h_3 => rfl

end Parts

/-! ### Whole key expressions -/

theorem parts_spec (op : MatchOp) {l r : Bytes} {lb le rb re : ℕ} {P Q : List (Option Bytes)}
    {Other : List (Option Bytes) → Prop} (hl : KeyAt l lb le P) (hr : KeyAt r rb re Q)
    (hrp : Reduced P) (hrq : Reduced Q) (hcut : CutsAtChunks op Other P Q) :
    Computes (fun n ↦ keyexprParts op n l lb le r rb re) (keyParts op P Q) := by
  refine Computes.succ (by rw [keyexprParts]) ?_
  simp only [keyexprParts]
  exact LoopComputes.computes (parts_loop hl hr hrp hrq hcut)

theorem cutsWhole_star_left {P Q : List (Option Bytes)} (h : CutsWhole P Q) :
    CutsWhole (none :: P) Q := by
  rcases h with h | h | ⟨h₁, h₂⟩
  · refine Or.inl ?_
    rw [clean_iff] at h ⊢
    simpa [entryBytes, doubleStar, verbatim, star] using h
  · exact Or.inr (Or.inl h)
  · exact Or.inr (Or.inr ⟨fun c hc ↦ h₁ c (by simpa using hc), h₂⟩)

/-- Behind a `**`, and once chunks are matched off the back of both patterns down to a `**`, what
is handed to the parts matcher is cut between chunks. -/
def BackWhole (op : MatchOp) (P Q : List (Option Bytes)) : Prop :=
  ∀ x y b c, P = x ++ b.map some → Q = y ++ c.map some →
    List.Forall₂ (fun c d ↦ chunkBwd op c d = true) b c →
      EndsInStar x ∨ op.typeIntersects = true ∧ EndsInStar y → CutsWhole x y

/-- Whatever two patterns hand to the parts matcher is cut between chunks. -/
def MiddlesWhole (op : MatchOp) (P Q : List (Option Bytes)) : Prop :=
  (∀ x y, Facing (chunkFwd op) (chunkBwd op) P Q x y →
    EndsInStar x ∨ op.typeIntersects = true ∧ EndsInStar y → CutsWhole x y) ∧
  (op = .intersects → ∀ x y, Facing (fun c d ↦ chunkFwd op d c) (chunkBwd op) Q P x y →
    EndsInStar x ∨ op.typeIntersects = true ∧ EndsInStar y → CutsWhole x y)

theorem CutsWhole.middlesWhole {P Q : List (Option Bytes)} (op : MatchOp) (h : CutsWhole P Q) :
    MiddlesWhole op P Q := by
  have hsub : ∀ {P Q x y : List (Option Bytes)} {front : Bytes → Bytes → Bool}, CutsWhole P Q →
      Facing front (chunkBwd op) P Q x y → CutsWhole x y := by
    rintro P Q x y front h ⟨f, g, b, c, rfl, rfl, -⟩
    refine h.of_subset ?_ ?_ <;> intro a ha <;> simp [ha]
  exact ⟨fun x y hface _ ↦ hsub h hface, fun _ x y hface _ ↦ hsub h.symm hface⟩

theorem backWhole_of_concat {op : MatchOp} {P Q : List (Option Bytes)} {d : Bytes}
    (hcd : chunkBwd op c d = true) (h : BackWhole op (P ++ [some c]) (Q ++ [some d])) :
    BackWhole op P Q := by
  rintro x y s t rfl rfl hst hend
  exact h x y (s ++ [c]) (t ++ [d]) (by simp) (by simp) (rel_append hst (.cons hcd .nil)) hend

theorem middlesWhole_of_cons {op : MatchOp} {P Q : List (Option Bytes)} {d : Bytes}
    (hcd : chunkFwd op c d = true) (h : MiddlesWhole op (some c :: P) (some d :: Q)) :
    MiddlesWhole op P Q :=
  ⟨fun x y hface ↦ h.1 x y (facing_letter_iff.mpr ⟨hcd, hface⟩),
    fun hop x y hface ↦ h.2 hop x y (facing_letter_iff.mpr ⟨hcd, hface⟩)⟩

theorem MiddlesWhole.backWhole {op : MatchOp} {P Q : List (Option Bytes)}
    (h : MiddlesWhole op (none :: P) Q) : BackWhole op P Q :=
  fun x y b c hP hQ hbc ↦ h.1 x y (facing_star_iff.mpr ⟨b, c, hP, hQ, hbc⟩)

theorem MiddlesWhole.backWhole_right {op : MatchOp} {P Q : List (Option Bytes)}
    (hop : op = .intersects) (h : MiddlesWhole op P (none :: Q)) : BackWhole op Q P :=
  fun x y b c hQ hP hbc ↦ h.2 hop x y (facing_star_iff.mpr ⟨b, c, hQ, hP, hbc⟩)

section Meets

variable {rest Other : List (Option Bytes) → Prop} {pair : Bytes → Bytes → Prop}

theorem BackWhole.meets {op : MatchOp} {P Q : List (Option Bytes)} (h : BackWhole op P Q) :
    MeetsBack op.typeIntersects (chunkBwd op) (fun _ ↦ True)
      (fun x y ↦ CutsAtChunks op (fun _ ↦ True) (none :: x) y) (fun _ _ ↦ True) P.reverse
        Q.reverse := by
  induction P using List.reverseRecOn generalizing Q with
  | nil => trivial
  | append_singleton P a ih =>
    cases Q using List.reverseRecOn with
    | nil =>
      rw [reverse_concat]
      cases a <;> trivial
    | append_singleton Q b =>
      have hcut := h (P ++ [a]) (Q ++ [b]) [] [] (by simp) (by simp) .nil
      rw [reverse_concat, reverse_concat]
      match a, b with
      | none, b =>
        have hmiddle : CutsAtChunks op (fun _ ↦ True) (none :: (P ++ [none])) (Q ++ [b]) :=
          (cutsWhole_star_left (hcut (Or.inl ⟨P, rfl⟩))).cutsAtChunks
        simpa [MeetsBack] using hmiddle
      | some c, none =>
        intro hop
        have hmiddle : CutsAtChunks op (fun _ ↦ True) (none :: (P ++ [some c])) (Q ++ [none]) :=
          (cutsWhole_star_left (hcut (Or.inr ⟨hop, Q, rfl⟩))).cutsAtChunks
        simpa using hmiddle
      | some c, some d => exact ⟨trivial, fun hcd ↦ ih (backWhole_of_concat hcd h)⟩

theorem MiddlesWhole.meets {op : MatchOp} {P Q : List (Option Bytes)} (h : MiddlesWhole op P Q) :
    MeetsFront op.typeIntersects (chunkFwd op) (chunkBwd op) (fun _ ↦ True)
      (fun x y ↦ CutsAtChunks op (fun _ ↦ True) (none :: x) y) (fun _ _ ↦ True) P Q := by
  induction P generalizing Q with
  | nil => trivial
  | cons a P ih =>
    match a, Q with
    | none, [] => trivial
    | some c, [] => trivial
    | none, b :: Q => exact h.backWhole.meets
    | some c, none :: Q =>
      intro hop
      have hinter : op = .intersects := by
        cases op with
        | intersects => rfl
        | includes => cases hop
      exact (h.backWhole_right hinter).meets
    | some c, some d :: Q => exact fun hcd ↦ ih (middlesWhole_of_cons hcd h)

/-- The backward matcher behind a `**`: it hands what lies between two `**` to the parts matcher,
together with the `**` in front. -/
theorem backward_verbatim (op : MatchOp) {l r : Bytes} {lb le rb re : ℕ}
    {P Q : List (Option Bytes)} (hP : P ≠ []) (hQ : Q ≠ []) (hl : KeyAt l lb le (none :: P))
    (hr : KeyAt r rb re Q) (hrp : Reduced (none :: P)) (hrq : Reduced Q)
    (hmeets : MeetsBack op.typeIntersects (chunkBwd op) rest
      (fun x y ↦ CutsAtChunks op Other (none :: x) y) pair P.reverse Q.reverse) :
    Computes (fun n ↦ keyexprBackward op n l (lb + doubleStarLen + delimiterLen) le r rb re true)
      (stripBack op.typeIntersects (chunkBwd op) clean (fun P Q ↦ keyParts op (none :: P) Q)
        P.reverse Q.reverse) := by
  refine Computes.succ (by rw [keyexprBackward]) ?_
  simp only [keyexprBackward]
  have hhead : Reads l lb (doubleStar ++ [delimiter]) := by
    obtain ⟨hstar, hdel, -⟩ := KeyAt.cut (P := [none]) hl (by simp) hP
    exact reads_concat_iff.mpr ⟨(hstar.reads (by simp)).1, hdel⟩
  have hback : lb + doubleStarLen + delimiterLen - doubleStarLen - delimiterLen = lb := by
    simp only [doubleStarLen, delimiterLen]
    omega
  refine LoopComputes.computes (backward_loop op hP hQ hl.tail hr hrp
    (I := fun P Q ↦ MeetsBack op.typeIntersects (chunkBwd op) rest
      (fun x y ↦ CutsAtChunks op Other (none :: x) y) pair P.reverse Q.reverse ∧ Reduced Q)
    ⟨hmeets, hrq⟩ ?_ (fun _ _ _ h ↦ absurd h (by simp)) ?_ ?_)
  · intro P Q c d hcd h
    rw [reverse_concat, reverse_concat] at h
    exact ⟨h.1.2 hcd, reduced_of_append_left h.2⟩
  · intro P Q le re hQ hrp hI hl hr
    obtain ⟨Q, b, rfl⟩ : ∃ Q' b, Q = Q' ++ [b] := ⟨_, _, (dropLast_append_getLast hQ).symm⟩
    have hcut := hI.1
    rw [reverse_concat, reverse_concat] at hcut
    have hmiddle : CutsAtChunks op Other (none :: (P ++ [none])) (Q ++ [b]) := by
      simpa [MeetsBack] using hcut
    simp only [if_true, hback]
    exact parts_spec op (hl.cons_star hhead (by simp)) hr hrp hI.2 hmiddle
  · intro P Q c le re hop hrp hI hl hr
    have hcut := hI.1
    rw [reverse_concat, reverse_concat] at hcut
    have hmiddle : CutsAtChunks op Other (none :: (P ++ [some c])) (Q ++ [none]) := by
      simpa using hcut (by rw [hop]; rfl)
    simp only [if_true, hback]
    exact parts_spec op (hl.cons_star hhead (by simp)) hr hrp hI.2 hmiddle

/-- The forward matcher on two key expressions that are cut between chunks. -/
theorem forward_verbatim (op : MatchOp) {l r : Bytes} {lb le rb re : ℕ}
    {P Q : List (Option Bytes)} (hl : KeyAt l lb le P) (hr : KeyAt r rb re Q) (hrp : Reduced P)
    (hrq : Reduced Q) (hmeets : MeetsFront op.typeIntersects (chunkFwd op) (chunkBwd op) rest
      (fun x y ↦ CutsAtChunks op Other (none :: x) y) pair P Q) :
    Computes (fun n ↦ keyexprForward op n l lb le r rb re true) (keyVerbatim op P Q) := by
  refine Computes.succ (by rw [keyexprForward]) ?_
  simp only [keyexprForward]
  refine LoopComputes.computes (forward_loop op hl hr hrp hrq hmeets
    (fun _ _ _ _ hcd h ↦ h hcd) ?_ ?_)
  · intro P Q lb rb hP hQ hrp hrq hmeets hl hr
    obtain ⟨b, Q, rfl⟩ := exists_cons_of_ne_nil hQ
    exact backward_verbatim op hP hQ hl hr hrp hrq hmeets
  · intro P Q c lb rb hop hQ hrp hrq hmeets hl hr
    exact backward_verbatim op hQ (cons_ne_nil _ _) hr hl hrq hrp
      (hmeets (by rw [hop]; rfl))

end Meets

end ZenohPico.Keyexpr
