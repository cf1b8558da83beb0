import ZenohPico.Keyexpr.ChunkRefinementBackward

/-!
Lists of chunks as they stand in a key expression. `KeyAt s b e P` says that the region from `b` to
`e` holds the chunks of the pattern `P`, where `**` is the star; an empty pattern has no text, and
its region is one that is already passed. The lemmas take the first or the last chunk off a region,
cut it between two chunks, and give the value of the helpers that look through a region for a `**`
or an `@`.
-/

open List Option

namespace ZenohPico.Keyexpr

open Foundations

/-! ### The text of a pattern over chunks -/

/-- The chunk an entry of a pattern stands for in the text. -/
def entryBytes : Option Bytes → Bytes
  | none => doubleStar
  | some c => c

/-- The text of a pattern over chunks. -/
def keyText (P : List (Option Bytes)) : Bytes := joinChunks (P.map entryBytes)

/-- A chunk that may stand as a letter: canonical, not `**`, and without `/`. -/
def KeyLetter (c : Bytes) : Prop := CanonicalLetter c ∧ delimiter ∉ c

theorem keyText_singleton (a : Option Bytes) : keyText [a] = entryBytes a :=
  joinChunks_singleton _

theorem keyText_cons {P : List (Option Bytes)} (a : Option Bytes) (hP : P ≠ []) :
    keyText (a :: P) = entryBytes a ++ delimiter :: keyText P := by
  rw [keyText, map_cons, joinChunks_cons _ (by simpa using hP), keyText]

theorem keyText_append {P Q : List (Option Bytes)} (hP : P ≠ []) (hQ : Q ≠ []) :
    keyText (P ++ Q) = keyText P ++ delimiter :: keyText Q := by
  induction P with
  | nil => exact absurd rfl hP
  | cons a P ih =>
    rw [cons_append, keyText_cons a (by simp [hQ])]
    rcases eq_or_ne P [] with rfl | hP'
    · rw [keyText_singleton, nil_append]
    · rw [ih hP', keyText_cons a hP', append_assoc, cons_append]

theorem keyText_patternOf_chunks (s : Bytes) : keyText (patternOf (chunks s)) = s := by
  have hmap : (patternOf (chunks s)).map entryBytes = chunks s := by
    rw [patternOf, List.map_map]
    conv_rhs => rw [← map_id (chunks s)]
    refine map_congr_left fun c _ ↦ ?_
    simp only [Function.comp_apply, id_eq]
    split_ifs with hc
    · exact hc.symm
    · rfl
  rw [keyText, hmap, joinChunks_chunks]

theorem entryBytes_pos {P : List (Option Bytes)} (hP : AllLetters KeyLetter P) {a : Option Bytes}
    (ha : a ∈ P) : 0 < (entryBytes a).length := by
  cases a with
  | none => simp [entryBytes, doubleStar]
  | some c => exact length_pos_of_ne_nil (hP c ha).1.ne_nil

theorem entryBytes_free {P : List (Option Bytes)} (hP : AllLetters KeyLetter P) {a : Option Bytes}
    (ha : a ∈ P) : delimiter ∉ entryBytes a := by
  cases a with
  | none => simp [entryBytes, doubleStar, delimiter, star]
  | some c => exact (hP c ha).2

theorem length_keyText_pos {P : List (Option Bytes)} (hP : AllLetters KeyLetter P) (hne : P ≠ []) :
    0 < (keyText P).length := by
  obtain ⟨a, P, rfl⟩ := exists_cons_of_ne_nil hne
  have hpos := entryBytes_pos hP (mem_cons_self)
  rcases eq_or_ne P [] with rfl | hP'
  · rwa [keyText_singleton]
  · rw [keyText_cons a hP', length_append]
    omega

/-! ### Regions -/

/-- The region from `b` to `e` holds the chunks of the pattern. -/
structure KeyAt (s : Bytes) (b e : ℕ) (P : List (Option Bytes)) : Prop where
  letters : AllLetters KeyLetter P
  passed : P = [] → e ≤ b
  reads : P ≠ [] → Reads s b (keyText P) ∧ e = b + (keyText P).length

theorem keyAt_nil {s : Bytes} {b e : ℕ} (h : e ≤ b) : KeyAt s b e [] :=
  ⟨by simp [AllLetters], fun _ ↦ h, fun hne ↦ absurd rfl hne⟩

namespace KeyAt

variable {s : Bytes} {b e : ℕ} {P Q : List (Option Bytes)} {a : Option Bytes}

theorem lt_iff (h : KeyAt s b e P) : b < e ↔ P ≠ [] := by
  constructor
  · rintro hlt rfl
    have := h.passed rfl
    omega
  · intro hne
    have := length_keyText_pos h.letters hne
    have := (h.reads hne).2
    omega

/-- Cut a region between two chunks. -/
theorem cut (h : KeyAt s b e (P ++ Q)) (hP : P ≠ []) (hQ : Q ≠ []) :
    KeyAt s b (b + (keyText P).length) P ∧ byteAt s (b + (keyText P).length) = delimiter ∧
      KeyAt s (b + (keyText P).length + 1) e Q := by
  obtain ⟨hreads, he⟩ := h.reads (by simp [hP])
  rw [keyText_append hP hQ] at hreads he
  obtain ⟨hfront, hdel, hback⟩ := reads_append_iff.mp hreads
  refine ⟨⟨h.letters.of_subset (subset_append_left _ _), fun h ↦ absurd h hP,
    fun _ ↦ ⟨hfront, rfl⟩⟩, hdel, ⟨h.letters.of_subset (subset_append_right _ _),
    fun h ↦ absurd h hQ, fun _ ↦ ⟨hback, ?_⟩⟩⟩
  rw [he, length_append, length_cons]
  omega

/-- The first chunk of a region. -/
theorem front (h : KeyAt s b e (a :: P)) : ChunkAt s b e (entryBytes a) := by
  have hfree := entryBytes_free h.letters (mem_cons_self)
  rcases eq_or_ne P [] with rfl | hP
  · obtain ⟨hreads, he⟩ := h.reads (by simp)
    rw [keyText_singleton] at hreads he
    exact ⟨hreads, hfree, Or.inl he.symm⟩
  · rw [← singleton_append] at h
    obtain ⟨hfront, hdel, hback⟩ := h.cut (by simp) hP
    have hreads := (hfront.reads (by simp)).1
    have hlt := hback.lt_iff.mpr hP
    rw [keyText_singleton] at hreads hdel hlt
    exact ⟨hreads, hfree, Or.inr ⟨by omega, hdel⟩⟩

/-- What follows the first chunk of a region. -/
theorem tail (h : KeyAt s b e (a :: P)) : KeyAt s (b + (entryBytes a).length + 1) e P := by
  rcases eq_or_ne P [] with rfl | hP
  · obtain ⟨-, he⟩ := h.reads (by simp)
    rw [keyText_singleton] at he
    exact keyAt_nil (by omega)
  · rw [← singleton_append] at h
    have hback := (h.cut (by simp) hP).2.2
    rwa [keyText_singleton] at hback

/-- A region with a `**` in front of it. -/
theorem cons_star (h : KeyAt s (b + doubleStarLen + delimiterLen) e P)
    (hhead : Reads s b (doubleStar ++ [delimiter])) (hP : P ≠ []) : KeyAt s b e (none :: P) := by
  obtain ⟨hreads, he⟩ := h.reads hP
  have htext : keyText (none :: P) = (doubleStar ++ [delimiter]) ++ keyText P := by
    rw [keyText_cons none hP]
    rfl
  refine ⟨fun c hc ↦ h.letters c (by simpa using hc), fun h ↦ absurd h (by simp), fun _ ↦ ?_⟩
  rw [htext, reads_append_iff]
  refine ⟨⟨hhead, hreads⟩, ?_⟩
  rw [he, length_append]
  exact Nat.add_assoc b 3 _

/-- The last chunk of a region. -/
theorem back (h : KeyAt s b e (P ++ [a])) :
    ∃ x, e = x + (entryBytes a).length ∧ ChunkBefore s b x (entryBytes a) ∧
      (P = [] → x = b) ∧ (P ≠ [] → b < x ∧ KeyAt s b (x - 1) P) := by
  have hfree := entryBytes_free h.letters (mem_append_right P (mem_singleton_self a))
  rcases eq_or_ne P [] with rfl | hP
  · obtain ⟨hreads, he⟩ := h.reads (by simp)
    rw [nil_append, keyText_singleton] at hreads he
    exact ⟨b, he, ⟨hreads, hfree, Or.inl rfl⟩, fun _ ↦ rfl, fun h ↦ absurd rfl h⟩
  · obtain ⟨hfront, hdel, hback⟩ := h.cut hP (by simp)
    obtain ⟨hreads, he⟩ := hback.reads (by simp)
    rw [keyText_singleton] at hreads he
    refine ⟨b + (keyText P).length + 1, he, ⟨hreads, hfree, Or.inr ⟨by omega, ?_⟩⟩,
      fun h ↦ absurd h hP, fun _ ↦ ⟨by omega, ?_⟩⟩
    · rwa [Nat.add_sub_cancel]
    · rwa [Nat.add_sub_cancel]

end KeyAt

/-! ### Cutting before a chunk -/

/-- The text of the chunks before a chunk, with the `/` that follows each of them. -/
def leadText (A : List (Option Bytes)) : Bytes := A.flatMap fun a ↦ entryBytes a ++ [delimiter]

variable {A B : List (Option Bytes)} {c : Bytes}

theorem leadText_eq (hA : A ≠ []) : leadText A = keyText A ++ [delimiter] := by
  induction A with
  | nil => exact absurd rfl hA
  | cons a A ih =>
    rcases eq_or_ne A [] with rfl | hA'
    · simp [leadText, keyText_singleton]
    · have hrest := ih hA'
      rw [leadText] at hrest
      rw [leadText, flatMap_cons, hrest, keyText_cons a hA']
      simp

/-- The region before a chunk, as the matchers leave it: without the `/` at its end. -/
theorem KeyAt.split {s : Bytes} {b e : ℕ} {a : Option Bytes} (h : KeyAt s b e (A ++ a :: B)) :
    Reads s b (leadText A) ∧ KeyAt s (b + (leadText A).length) e (a :: B) ∧
      KeyAt s b (if b + (leadText A).length = b then b else b + (leadText A).length - 1) A := by
  rcases eq_or_ne A [] with rfl | hA
  · exact ⟨trivial, h, by simpa [leadText] using keyAt_nil le_rfl⟩
  · obtain ⟨hfront, hdel, hback⟩ := h.cut hA (by simp)
    have hreads := (hfront.reads hA).1
    rw [leadText_eq hA, length_append, length_singleton]
    refine ⟨reads_concat_iff.mpr ⟨hreads, hdel⟩, hback, ?_⟩
    rw [if_neg (by omega)]
    exact hfront

/-! ### Looking for a `**` -/

/-- The first place of a text with two stars in a row. -/
def starPair : Bytes → Option ℕ
  | a :: b :: t => if a = star ∧ b = star then some 0 else (starPair (b :: t)).map (· + 1)
  | _ => none

/-- No two stars stand in a row. -/
def NoStarPair (c : Bytes) : Prop := c.IsChain fun a b ↦ a ≠ star ∨ b ≠ star

theorem starPair_append (hc : NoStarPair c) (t : Bytes) :
    starPair (c ++ delimiter :: t) = (starPair t).map (· + (c.length + 1)) := by
  induction c with
  | nil =>
    cases t with
    | nil => rfl
    | cons b t =>
      rw [nil_append, starPair, if_neg (by simp [delimiter, star])]
      rfl
  | cons a c ih =>
    have hrest := ih hc.tail
    cases c with
    | nil =>
      rw [nil_append] at hrest
      rw [cons_append, nil_append, starPair, if_neg (by simp [delimiter, star]), hrest,
        Option.map_map]
      congr 1
    | cons a' c =>
      have hpair : a ≠ star ∨ a' ≠ star := (isChain_cons_cons.mp hc).1
      rw [cons_append] at hrest
      rw [List.cons_append, List.cons_append, starPair, if_neg (by tauto), hrest, Option.map_map]
      congr 1

theorem starPair_eq_none (hc : NoStarPair c) : starPair c = none := by
  induction c with
  | nil => rfl
  | cons a c ih =>
    cases c with
    | nil => rfl
    | cons a' c =>
      have hpair : a ≠ star ∨ a' ≠ star := (isChain_cons_cons.mp hc).1
      rw [starPair, if_neg (by tauto), ih hc.tail]
      rfl

theorem noStarPair_untokenize {p : List (Option UInt8)} (hp : AllLetters Literal p) :
    NoStarPair (untokenize p) := by
  induction p with
  | nil => exact .nil
  | cons a p ih =>
    have hrest := ih (hp.of_subset (subset_cons_self _ _))
    cases a with
    | none =>
      -- the byte behind a `$*` opens the next entry of the pattern, so it is not a star
      have hnext : NoStarPair (star :: untokenize p) := by
        match p with
        | [] => exact .singleton _
        | none :: p => exact hrest.cons_cons (Or.inr (by decide))
        | some b :: p => exact hrest.cons_cons (Or.inr (hp b (by simp)).2.2.2)
      exact hnext.cons_cons (Or.inl (by decide))
    | some b =>
      have hb : b ≠ star := (hp b (by simp)).2.2.2
      rw [untokenize]
      cases hc : untokenize p with
      | nil => exact .singleton _
      | cons d t =>
        rw [hc] at hrest
        exact hrest.cons_cons (Or.inl hb)

theorem CanonicalLetter.noStarPair (hc : CanonicalLetter c) : NoStarPair c := by
  rcases hc with rfl | ⟨-, hlit, -⟩
  · exact .singleton _
  · rw [← untokenize_tokenize c]
    exact noStarPair_untokenize hlit

theorem starPair_leadText (hA : AllLetters KeyLetter A) (hnone : none ∉ A) (t : Bytes) :
    starPair (leadText A ++ t) = (starPair t).map (· + (leadText A).length) := by
  induction A with
  | nil => simp [leadText]
  | cons a A ih =>
    cases a with
    | none => exact absurd mem_cons_self hnone
    | some c =>
      have hrest := ih (hA.of_subset (subset_cons_self _ _))
        (fun h ↦ hnone (mem_cons_of_mem _ h))
      have hc := (hA c (by simp)).1.noStarPair
      rw [leadText] at hrest
      rw [leadText, flatMap_cons, append_assoc, entryBytes, append_assoc,
        List.singleton_append, starPair_append hc, hrest, Option.map_map]
      congr 1
      funext n
      simp only [Function.comp_apply, length_append, length_cons, length_nil]
      omega

theorem starPair_concat_of_notMem (hc : star ∉ c) (z : UInt8) : starPair (c ++ [z]) = none := by
  induction c with
  | nil => rfl
  | cons a c ih =>
    simp only [mem_cons, not_or] at hc
    cases c with
    | nil => rw [cons_append, nil_append, starPair, if_neg (by tauto)]; rfl
    | cons a' c =>
      rw [cons_append, cons_append, starPair, if_neg (by tauto), ← cons_append, ih hc.2]
      rfl

/-- The search may go on two bytes behind a single star. -/
theorem starPair_first_star (hc : star ∉ c) (y : UInt8) (t : Bytes) :
    starPair (c ++ star :: y :: t) =
      if y = star then some c.length else (starPair t).map (· + (c.length + 2)) := by
  induction c with
  | nil =>
    rw [nil_append, starPair]
    by_cases hy : y = star
    · simp [hy]
    · rw [if_neg (by simp [hy]), if_neg hy]
      cases t with
      | nil => rfl
      | cons z t =>
        rw [starPair, if_neg (by simp [hy]), Option.map_map]
        rfl
  | cons a c ih =>
    simp only [mem_cons, not_or] at hc
    have hne : ¬ (a = star ∧ (c ++ star :: y :: t).head? = some star) := fun h ↦ hc.1 h.1.symm
    have hstep : starPair (a :: (c ++ star :: y :: t)) =
        (starPair (c ++ star :: y :: t)).map (· + 1) := by
      cases c with
      | nil => rw [nil_append, starPair, if_neg (by tauto)]
      | cons a' c => rw [cons_append, starPair, if_neg (by tauto)]
    rw [cons_append, hstep, ih hc.2]
    split_ifs
    · rfl
    · rw [Option.map_map]
      rfl

theorem keyexprGetNextDoubleStarChunk_of_reads {s : Bytes} {b e : ℕ} {t : Bytes} (h : Reads s b t)
    (he : e = b + t.length) : keyexprGetNextDoubleStarChunk s b e = (starPair t).map (b + ·) := by
  induction hlen : t.length using Nat.strong_induction_on generalizing t b with
  | _ n ih =>
    rw [keyexprGetNextDoubleStarChunk]
    by_cases hlt : b + 1 < e
    swap
    · have hshort : starPair t = none := by
        match t with
        | [] => rfl
        | [a] => rfl
        | a :: a' :: t => simp only [length_cons] at he; omega
      rw [if_neg hlt, hshort]
      rfl
    obtain ⟨t', z, rfl⟩ : ∃ t' z, t = t' ++ [z] := by
      refine ⟨_, _, (dropLast_append_getLast ?_).symm⟩
      rintro rfl
      simp only [length_nil] at he
      omega
    rw [length_append, length_singleton] at he
    rw [if_pos hlt]
    by_cases hstar : star ∈ t'
    swap
    · have hnone : memchr s star b (e - b - 1) = none :=
        memchr_eq_none_of_reads (reads_append_iff.mp h).1 (by omega) hstar
      rw [starPair_concat_of_notMem hstar]
      split
      case h_1 => rfl
      case h_2 c hsome => rw [hnone] at hsome; exact absurd hsome (by simp)
    obtain ⟨c, d, rfl, hc⟩ := eq_append_cons_of_mem hstar
    obtain ⟨y, rest, hd⟩ : ∃ y rest, d ++ [z] = y :: rest :=
      exists_cons_of_ne_nil (by simp)
    rw [append_assoc, cons_append, hd] at h hlen ⊢
    have hlens : d.length = rest.length := by
      have := congrArg List.length hd
      simpa using this
    simp only [length_append, length_cons] at he hlen
    obtain ⟨hreadsC, hreadStar, hreadY, hreadsRest⟩ := reads_append_iff.mp h
    have hsome : memchr s star b (e - b - 1) = some (b + c.length) :=
      memchr_eq_some_of_reads (reads_concat_iff.mpr ⟨hreadsC, hreadStar⟩) (by omega) hc
    rw [starPair_first_star hc]
    split
    case h_1 hnone => rw [hsome] at hnone; exact absurd hnone (by simp)
    case h_2 p hp =>
      rw [hsome, some.injEq] at hp
      subst hp
      rw [hreadY]
      split_ifs with hy
      · rfl
      · have hrest := ih rest.length (by omega) hreadsRest (by omega) rfl
        simp only [doubleStarLen]
        rw [show b + c.length + 2 = b + c.length + 1 + 1 by omega, hrest, Option.map_map]
        congr 1
        funext n
        simp only [Function.comp_apply]
        omega

theorem keyText_append_cons (A : List (Option Bytes)) (a : Option Bytes) (B : List (Option Bytes)) :
    keyText (A ++ a :: B) = leadText A ++ keyText (a :: B) := by
  rcases eq_or_ne A [] with rfl | hA
  · simp [leadText]
  · rw [keyText_append hA (by simp), leadText_eq hA]
    simp

theorem starPair_keyText_star (B : List (Option Bytes)) :
    starPair (keyText (none :: B)) = some 0 := by
  rcases eq_or_ne B [] with rfl | hB
  · rfl
  · rw [keyText_cons none hB]
    rfl

theorem starPair_keyText_of_notMem {P : List (Option Bytes)} (hP : AllLetters KeyLetter P)
    (hnone : none ∉ P) : starPair (keyText P) = none := by
  rcases eq_or_ne P [] with rfl | hne
  · rfl
  obtain ⟨A, a, rfl⟩ : ∃ A a, P = A ++ [a] := ⟨_, _, (dropLast_append_getLast hne).symm⟩
  cases a with
  | none => simp at hnone
  | some c =>
    rw [keyText_append_cons, starPair_leadText (hP.of_subset (subset_append_left _ _))
      (fun h ↦ hnone (mem_append_left _ h)), keyText_singleton, entryBytes,
      starPair_eq_none (hP c (by simp)).1.noStarPair]
    rfl

theorem KeyAt.nextDoubleStar_none {s : Bytes} {b e : ℕ} {P : List (Option Bytes)}
    (h : KeyAt s b e P) (hnone : none ∉ P) : keyexprGetNextDoubleStarChunk s b e = none := by
  rcases eq_or_ne P [] with rfl | hne
  · have := h.passed rfl
    rw [keyexprGetNextDoubleStarChunk, if_neg (by omega)]
  · obtain ⟨hreads, he⟩ := h.reads hne
    rw [keyexprGetNextDoubleStarChunk_of_reads hreads he, starPair_keyText_of_notMem h.letters hnone]
    rfl

theorem KeyAt.nextDoubleStar_some {s : Bytes} {b e : ℕ} (h : KeyAt s b e (A ++ none :: B))
    (hA : none ∉ A) : keyexprGetNextDoubleStarChunk s b e = some (b + (leadText A).length) := by
  obtain ⟨hreads, he⟩ := h.reads (by simp)
  rw [keyexprGetNextDoubleStarChunk_of_reads hreads he, keyText_append_cons,
    starPair_leadText (h.letters.of_subset (subset_append_left _ _)) hA, starPair_keyText_star]
  simp

theorem KeyAt.nextDoubleStar_isSome {s : Bytes} {b e : ℕ} {P : List (Option Bytes)}
    (h : KeyAt s b e P) : (keyexprGetNextDoubleStarChunk s b e).isSome = P.any Option.isNone := by
  by_cases hnone : none ∈ P
  · obtain ⟨A, B, rfl, hA⟩ := eq_append_cons_of_mem hnone
    rw [h.nextDoubleStar_some hA]
    simp
  · rw [h.nextDoubleStar_none hnone]
    symm
    rw [Option.isSome_none, List.any_eq_false]
    rintro (_ | c) hc
    · exact absurd hc hnone
    · simp

theorem KeyAt.isDoubleStar {s : Bytes} {b e : ℕ} {P : List (Option Bytes)} (h : KeyAt s b e P)
    (hne : P ≠ []) : keyexprIsDoubleStar s b e = isLoneStar P := by
  obtain ⟨hreads, he⟩ := h.reads hne
  rw [keyexprIsDoubleStar, show e - b = (keyText P).length by omega]
  match P with
  | [] => exact absurd rfl hne
  | [none] =>
    rw [hreads.1, hreads.2.1]
    rfl
  | [some c] =>
    have hc := (h.letters c (by simp)).1
    rw [keyText_singleton, entryBytes] at hreads ⊢
    rw [beq_star_of_reads hreads hc, isLoneStar]
    · by_cases hcs : c = starChunk
      · simp [hcs, starChunk]
      · simp [hcs]
    · simp
  | a :: a' :: P =>
    have hfirst := entryBytes_pos h.letters (mem_cons_self)
    have hrest := length_keyText_pos (h.letters.of_subset (subset_cons_self _ _))
      (cons_ne_nil a' P)
    rw [keyText_cons a (by simp), length_append, length_cons,
      beq_false_of_ne (by omega), isLoneStar]
    · rfl
    · simp

/-! ### Looking for an `@` -/

/-- No chunk of the pattern holds an `@`. -/
def clean (P : List (Option Bytes)) : Bool := P.all fun a ↦ !decide (verbatim ∈ entryBytes a)

theorem clean_iff {P : List (Option Bytes)} :
    clean P = true ↔ ∀ a ∈ P, verbatim ∉ entryBytes a := by
  simp [clean]

theorem verbatim_mem_leadText_iff : verbatim ∈ leadText A ↔ ∃ a ∈ A, verbatim ∈ entryBytes a := by
  simp [leadText, verbatim, delimiter]

theorem verbatim_mem_keyText_iff {P : List (Option Bytes)} :
    verbatim ∈ keyText P ↔ ∃ a ∈ P, verbatim ∈ entryBytes a := by
  rcases eq_or_ne P [] with rfl | hne
  · simp [keyText, joinChunks]
  · have hlead := verbatim_mem_leadText_iff (A := P)
    rw [leadText_eq hne] at hlead
    rw [← hlead]
    simp [verbatim, delimiter]

theorem KeyAt.nextVerbatim_isNone {s : Bytes} {b e : ℕ} {P : List (Option Bytes)}
    (h : KeyAt s b e P) : (keyexprGetNextVerbatimChunk s b e).isNone = clean P := by
  rcases eq_or_ne P [] with rfl | hne
  · have := h.passed rfl
    rw [keyexprGetNextVerbatimChunk, show e - b = 0 by omega]
    rfl
  · obtain ⟨hreads, he⟩ := h.reads hne
    rw [keyexprGetNextVerbatimChunk, show e - b = (keyText P).length by omega,
      memchr_of_reads hreads, Bool.eq_iff_iff, clean_iff]
    have hmem := verbatim_mem_keyText_iff (P := P)
    split_ifs with hv
    · simpa using hmem.mp hv
    · simpa using mt hmem.mpr hv

theorem KeyAt.nextVerbatim_some {s : Bytes} {b e : ℕ} {v : Bytes}
    (h : KeyAt s b e (A ++ some v :: B)) (hA : clean A = true) (hv : StartsVerbatim v) :
    keyexprGetNextVerbatimChunk s b e = some (b + (leadText A).length) := by
  obtain ⟨hreads, hrest, -⟩ := h.split
  obtain ⟨v', rfl⟩ : ∃ v', v = verbatim :: v' := by
    cases v with
    | nil => simp [StartsVerbatim] at hv
    | cons a v => exact ⟨v, by rw [StartsVerbatim, List.head?_cons, some.injEq] at hv; rw [hv]⟩
  have hlt := hrest.front.lt
  rw [keyexprGetNextVerbatimChunk]
  refine memchr_eq_some_of_reads (reads_concat_iff.mpr ⟨hreads, hrest.front.head⟩) (by omega) ?_
  rw [verbatim_mem_leadText_iff]
  rw [clean_iff] at hA
  rintro ⟨a, ha, hmem⟩
  exact hA a ha hmem

end ZenohPico.Keyexpr
