import ZenohPico.Keyexpr.CanonizeChunks
import ZenohPico.Keyexpr.Matching

/-!
The chunks of a string without their repetitions of `$*`, which is what `_z_keyexpr_canonize` goes
through, and the keys that its result stands for: those of the string, as a `**` that is written late
passes the `*` in front of it.

A string need not have a terminator behind it. Where it ends with a `$` and a `*` is behind it in
memory, `__zp_singleify` takes the two for a `$*` (`readText`).
-/

namespace ZenohPico.Keyexpr

open Foundations List Option

/-! ### Texts and their chunks -/

variable {cs : List Bytes} {b a : UInt8} {c s : Bytes}

theorem chunks_joinChunks (hne : cs ≠ []) (hfree : ∀ c ∈ cs, delimiter ∉ c) :
    chunks (joinChunks cs) = cs :=
  splitOn_intercalate delimiter hfree hne

/-- A `/` is never part of a `$*`. -/
theorem tokenize_append_delimiter (c t : Bytes) :
    tokenize (c ++ delimiter :: t) = tokenize c ++ some delimiter :: tokenize t := by
  match c with
  | [] => exact tokenize_cons_of_ne (by decide) t
  | [b] =>
    rw [singleton_append, tokenize.eq_3, if_neg (fun h ↦ absurd h.2 (by decide)),
      tokenize_cons_of_ne (by decide)]
    rfl
  | a :: b :: c =>
    have hrest := tokenize_append_delimiter c t
    have hrest' := tokenize_append_delimiter (b :: c) t
    rw [cons_append, cons_append, tokenize, tokenize]
    split_ifs
    · rw [hrest, cons_append]
    · rw [← cons_append, hrest', cons_append]

/-- A chunk without its repetitions of `$*`. -/
def collapseChunk (c : Bytes) : Bytes := untokenize (collapse false (tokenize c))

theorem collapse_joinChunks (hne : cs ≠ []) :
    untokenize (collapse false (tokenize (joinChunks cs))) = joinChunks (cs.map collapseChunk) := by
  induction cs with
  | nil => exact absurd rfl hne
  | cons c cs ih =>
    rcases eq_or_ne cs [] with rfl | hcs
    · simp [joinChunks_singleton, collapseChunk]
    · rw [joinChunks_cons c hcs, tokenize_append_delimiter, collapse_append_letter,
        untokenize_append, untokenize, ih hcs, map_cons, joinChunks_cons _ (by simpa using hcs),
        collapseChunk]

variable {p : List (Option UInt8)}

theorem mem_of_mem_untokenize (h : b ∈ untokenize p) : some b ∈ p ∨ b = dsl0 ∨ b = star := by
  induction p with
  | nil => simp [untokenize] at h
  | cons a p ih =>
    cases a with
    | none =>
      simp only [untokenize, mem_cons] at h
      rcases h with h | h | h
      · exact Or.inr (Or.inl h)
      · exact Or.inr (Or.inr h)
      · exact (ih h).imp (mem_cons_of_mem _) id
    | some a =>
      simp only [untokenize, mem_cons] at h
      rcases h with rfl | h
      · exact Or.inl mem_cons_self
      · exact (ih h).imp (mem_cons_of_mem _) id

theorem delimiter_notMem_collapseChunk (h : delimiter ∉ c) : delimiter ∉ collapseChunk c := by
  intro hmem
  rcases mem_of_mem_untokenize hmem with hmem | hmem | hmem
  · exact h (mem_of_mem_tokenize (mem_collapse_some_iff.mp hmem))
  · exact absurd hmem (by decide)
  · exact absurd hmem (by decide)

/-- Removing repetitions works chunk by chunk. -/
theorem chunks_collapse (s : Bytes) :
    chunks (untokenize (collapse false (tokenize s))) = (chunks s).map collapseChunk := by
  have hcol := collapse_joinChunks (chunks_ne_nil s)
  rw [joinChunks_chunks] at hcol
  rw [hcol]
  refine chunks_joinChunks (by simpa using chunks_ne_nil s) ?_
  intro c hc
  obtain ⟨d, hd, rfl⟩ := List.mem_map.mp hc
  exact delimiter_notMem_collapseChunk (delimiter_notMem_of_mem_chunks hd)

/-! ### Well-formed chunks -/

instance (c : Bytes) : Decidable (WellFormedChunk c) :=
  inferInstanceAs (Decidable (_ ∨ _ ∨ _ ∧ _))

/-! ### The chunks without repetitions -/

/-- No letter `$` in front of a letter `*`: the pattern is written without making a star. -/
def Unpaired (p : List (Option UInt8)) : Prop :=
  p.IsChain fun a b ↦ ¬ (a = some dsl0 ∧ b = some star)

theorem tokenize_untokenize_of_unpaired (h : Unpaired p) : tokenize (untokenize p) = p := by
  induction p with
  | nil => rfl
  | cons a p ih =>
    have hrest := ih h.tail
    cases a with
    | none => rw [untokenize, tokenize_dollarStar_cons, hrest]
    | some a =>
      cases p with
      | nil => rfl
      | cons b p =>
        cases b with
        | none =>
          have hne : ¬ (a = dsl0 ∧ dsl0 = star) := fun hab ↦ absurd hab.2 (by decide)
          have htext : untokenize (some a :: none :: p) = a :: dsl0 :: star :: untokenize p := rfl
          rw [htext, tokenize.eq_3, if_neg hne]
          exact congrArg (some a :: ·) hrest
        | some b =>
          have hne : ¬ (a = dsl0 ∧ b = star) := fun hab ↦
            h.rel ⟨congrArg some hab.1, congrArg some hab.2⟩
          have htext : untokenize (some a :: some b :: p) = a :: b :: untokenize p := rfl
          rw [htext, tokenize.eq_3, if_neg hne]
          exact congrArg (some a :: ·) hrest

theorem unpaired_tokenize (c : Bytes) : Unpaired (tokenize c) := by
  match c with
  | [] => exact .nil
  | [b] => exact .singleton _
  | a :: b :: rest =>
    rw [tokenize]
    split_ifs with h
    · refine isChain_cons.mpr ⟨fun x _ hx ↦ absurd hx.1 (by simp), unpaired_tokenize rest⟩
    · refine isChain_cons.mpr ⟨fun x hx hpair ↦ ?_, unpaired_tokenize (b :: rest)⟩
      cases rest with
      | nil =>
        simp only [tokenize, List.head?_cons, mem_def, some.injEq] at hx
        rw [← hx] at hpair
        exact h ⟨some.inj hpair.1, some.inj hpair.2⟩
      | cons d rest =>
        rw [tokenize] at hx
        split_ifs at hx
        · simp only [List.head?_cons, mem_def, some.injEq] at hx
          rw [← hx] at hpair
          exact absurd hpair.2 (by simp)
        · simp only [List.head?_cons, mem_def, some.injEq] at hx
          rw [← hx] at hpair
          exact h ⟨some.inj hpair.1, some.inj hpair.2⟩

theorem head?_collapse (p : List (Option UInt8)) : (collapse false p).head? = p.head? := by
  rcases p with _ | ⟨_ | a, p⟩ <;> rfl

theorem Unpaired.collapse (h : Unpaired p) (behind : Bool) :
    Unpaired (Foundations.collapse behind p) := by
  induction p generalizing behind with
  | nil => cases behind <;> exact .nil
  | cons a p ih =>
    have htail : Unpaired p := h.tail
    cases a with
    | none =>
      have hrest := ih htail true
      cases behind with
      | true => exact hrest
      | false => exact isChain_cons.mpr ⟨fun x _ hx ↦ absurd hx.1 (by simp), hrest⟩
    | some a =>
      have hrest := ih htail false
      have hcons : Unpaired (some a :: Foundations.collapse false p) := by
        refine isChain_cons.mpr ⟨fun x hx ↦ ?_, hrest⟩
        rw [head?_collapse] at hx
        exact (isChain_cons.mp h).1 x hx
      cases behind <;> exact hcons

theorem tokenize_collapseChunk_eq (c : Bytes) :
    tokenize (collapseChunk c) = collapse false (tokenize c) :=
  tokenize_untokenize_of_unpaired ((unpaired_tokenize c).collapse false)

theorem allLetters_collapseChunk :
    AllLetters Literal (tokenize (collapseChunk c)) ↔ AllLetters Literal (tokenize c) := by
  rw [tokenize_collapseChunk_eq]
  exact forall_congr' fun a ↦ by rw [mem_collapse_some_iff]

theorem collapse_eq_singleton_iff : collapse false p = [some a] ↔ p = [some a] := by
  constructor
  · intro h
    rcases p with _ | ⟨_ | b, _ | ⟨_ | d, p⟩⟩ <;> simp_all [collapse]
  · rintro rfl
    rfl

theorem collapse_eq_pair_iff : collapse false p = [some a, some b] ↔ p = [some a, some b] := by
  constructor
  · intro h
    cases p with
    | nil => simp [collapse] at h
    | cons d p =>
      cases d with
      | none => simp [collapse] at h
      | some d =>
        rw [collapse, List.cons.injEq, collapse_eq_singleton_iff] at h
        rw [h.1, h.2]
  · rintro rfl
    rfl

theorem tokenize_injective {d : Bytes} (h : tokenize c = tokenize d) : c = d := by
  rw [← untokenize_tokenize c, h, untokenize_tokenize]

/-- A chunk of one byte is none but itself without repetitions. -/
theorem collapseChunk_eq_single_iff : collapseChunk c = [b] ↔ c = [b] := by
  constructor
  · intro h
    have htok := congrArg tokenize h
    rw [tokenize_collapseChunk_eq] at htok
    exact tokenize_injective (collapse_eq_singleton_iff.mp htok)
  · rintro rfl
    rfl

theorem collapseChunk_eq_doubleStar_iff : collapseChunk c = doubleStar ↔ c = doubleStar := by
  constructor
  · intro h
    have htok := congrArg tokenize h
    rw [tokenize_collapseChunk_eq] at htok
    exact tokenize_injective (collapse_eq_pair_iff.mp htok)
  · rintro rfl
    rfl

theorem collapseChunk_eq_nil_iff : collapseChunk c = [] ↔ c = [] := by
  constructor
  · intro h
    have htok := congrArg tokenize h
    have hhead := head?_collapse (tokenize c)
    rw [← tokenize_collapseChunk_eq, htok] at hhead
    exact tokenize_injective (List.head?_eq_none_iff.mp hhead.symm)
  · rintro rfl
    rfl

theorem wellFormedChunk_collapseChunk : WellFormedChunk (collapseChunk c) ↔ WellFormedChunk c := by
  rw [WellFormedChunk, WellFormedChunk, starChunk, collapseChunk_eq_single_iff,
    collapseChunk_eq_doubleStar_iff, ne_eq, collapseChunk_eq_nil_iff, allLetters_collapseChunk]

theorem reduced_collapseChunk (c : Bytes) : Reduced (tokenize (collapseChunk c)) := by
  rw [tokenize_collapseChunk_eq]
  exact (reduced_collapse _).1

theorem collapseChunk_of_reduced (h : Reduced (tokenize c)) : collapseChunk c = c := by
  rw [collapseChunk, collapse_eq_self.1 h, untokenize_tokenize]

/-- The chunks of the string, each without its repetitions of `$*`. -/
def collapsed (s : Bytes) : List Bytes := (chunks s).map collapseChunk

theorem wellFormed_iff_collapsed : WellFormed s ↔ ∀ c ∈ collapsed s, WellFormedChunk c := by
  rw [collapsed, List.forall_mem_map]
  exact forall₂_congr fun c _ ↦ wellFormedChunk_collapseChunk.symm

theorem reduced_of_mem_collapsed (h : c ∈ collapsed s) : Reduced (tokenize c) := by
  obtain ⟨d, -, rfl⟩ := List.mem_map.mp h
  exact reduced_collapseChunk d

/-! ### What is read for the string -/

/-- The string ends with a `$`, and what is behind it in memory begins with a `*`. -/
def Overread (s behind : Bytes) : Prop := s.getLast? = some dsl0 ∧ behind.head? = some star

instance (s behind : Bytes) : Decidable (Overread s behind) :=
  inferInstanceAs (Decidable (_ ∧ _))

/-- What `__zp_singleify` takes for the string -/
def readText (s behind : Bytes) : Bytes := if Overread s behind then s ++ [star] else s

theorem readText_of_not_overread {behind : Bytes} (h : ¬ Overread s behind) :
    readText s behind = s := if_neg h

theorem tokenizeBefore_star {t : Bytes} (h : t.getLast? = some dsl0) :
    tokenizeBefore star t = tokenize (t ++ [star]) := by
  match t with
  | [b] =>
    obtain rfl : b = dsl0 := some.inj h
    rfl
  | a :: b :: t =>
    rw [tokenizeBefore, cons_append, cons_append, tokenize.eq_3]
    by_cases hpair : a = dsl0 ∧ b = star
    · have hlast : t.getLast? = some dsl0 := by
        cases t with
        | nil =>
          rw [hpair.2] at h
          exact absurd (some.inj h) (by decide : star ≠ dsl0)
        | cons d t => exact h
      rw [if_pos hpair, if_pos hpair, tokenizeBefore_star hlast]
    · have hlast : (b :: t).getLast? = some dsl0 := h
      rw [if_neg hpair, if_neg hpair, tokenizeBefore_star hlast, cons_append]

theorem tokenizeBefore_of_ne {next : UInt8} {t : Bytes}
    (h : ¬ (t.getLast? = some dsl0 ∧ next = star)) : tokenizeBefore next t = tokenize t := by
  fun_induction tokenize t with
  | case1 => rfl
  | case2 b =>
    have hb : ¬ (b = dsl0 ∧ next = star) := fun hpair ↦ h ⟨congrArg some hpair.1, hpair.2⟩
    rw [tokenizeBefore, if_neg hb]
  | case3 a b t hpair ih =>
    have hlast : ¬ (t.getLast? = some dsl0 ∧ next = star) := by
      cases t with
      | nil => simp
      | cons d t => exact h
    rw [tokenizeBefore, if_pos hpair, ih hlast]
  | case4 a b t hpair ih => rw [tokenizeBefore, if_neg hpair, ih h]

theorem byteAt_append_eq_star_iff (s behind : Bytes) :
    byteAt (s ++ behind) s.length = star ↔ behind.head? = some star := by
  cases behind with
  | nil =>
    rw [append_nil]
    exact iff_of_false (by rw [byteAt, getD_eq_default _ _ le_rfl]; decide) (by decide)
  | cons b behind =>
    rw [byteAt, getD_append_right _ _ _ _ le_rfl, Nat.sub_self, getD_cons_zero,
      List.head?_cons, some.injEq]

theorem memTokens_append (s behind : Bytes) :
    memTokens (s ++ behind) s.length = tokenize (readText s behind) := by
  have hnext := byteAt_append_eq_star_iff s behind
  rw [memTokens, take_left, readText]
  split_ifs with h
  · rw [hnext.mpr h.2, tokenizeBefore_star h.1]
  · exact tokenizeBefore_of_ne fun hpair ↦ h ⟨hpair.1, hnext.mp hpair.2⟩

/-- What `__zp_singleify` leaves of a string -/
theorem singleText_append (s behind : Bytes) :
    singleText (s ++ behind) s.length = untokenize (collapse false (tokenize (readText s behind))) := by
  rw [singleText, memTokens_append]

theorem chunks_singleText (s behind : Bytes) :
    chunks (singleText (s ++ behind) s.length) = collapsed (readText s behind) := by
  rw [singleText_append, chunks_collapse, collapsed]

theorem singleText_eq_joinChunks (s behind : Bytes) :
    singleText (s ++ behind) s.length = joinChunks (collapsed (readText s behind)) := by
  rw [← chunks_singleText, joinChunks_chunks]

theorem length_singleText_le_of_not_overread {behind : Bytes} (h : ¬ Overread s behind) :
    (singleText (s ++ behind) s.length).length ≤ s.length := by
  have hle := length_untokenize_collapse_le false (tokenize s)
  rw [untokenize_tokenize] at hle
  rw [singleText_append, readText_of_not_overread h]
  exact hle

theorem mem_tokenize_of_getLast {t : Bytes} (h : t.getLast? = some dsl0) :
    some dsl0 ∈ tokenize t := by
  match t with
  | [b] =>
    obtain rfl : b = dsl0 := some.inj h
    exact mem_singleton_self _
  | a :: b :: t =>
    rw [tokenize.eq_3]
    split_ifs with hpair
    · cases t with
      | nil =>
        rw [hpair.2] at h
        exact absurd (some.inj h) (by decide : star ≠ dsl0)
      | cons d t => exact mem_cons_of_mem _ (mem_tokenize_of_getLast h)
    · exact mem_cons_of_mem _ (mem_tokenize_of_getLast h)

/-- A byte of the text is one of a chunk or a `/`. -/
theorem exists_mem_tokenize_of_joinChunks (ha : a ≠ delimiter)
    (h : some a ∈ tokenize (joinChunks cs)) : ∃ c ∈ cs, some a ∈ tokenize c := by
  induction cs with
  | nil => exact absurd h not_mem_nil
  | cons c cs ih =>
    rcases eq_or_ne cs [] with rfl | hcs
    · rw [joinChunks_singleton] at h
      exact ⟨c, mem_singleton_self c, h⟩
    · rw [joinChunks_cons c hcs, tokenize_append_delimiter] at h
      rcases mem_append.mp h with h | h
      · exact ⟨c, mem_cons_self, h⟩
      · rcases mem_cons.mp h with h | h
        · exact absurd (some.inj h) ha
        · obtain ⟨d, hd, hmem⟩ := ih h
          exact ⟨d, mem_cons_of_mem _ hd, hmem⟩

theorem WellFormedChunk.dollar_notMem (h : WellFormedChunk c) : some dsl0 ∉ tokenize c := by
  rcases h with rfl | rfl | ⟨-, hletters⟩
  · decide
  · decide
  · exact fun hmem ↦ (hletters dsl0 hmem).2.2.1 rfl

/-- A well-formed string does not end with a `$`. -/
theorem WellFormed.not_overread (h : WellFormed s) (behind : Bytes) : ¬ Overread s behind := by
  rintro ⟨hlast, -⟩
  have hmem := mem_tokenize_of_getLast hlast
  rw [← joinChunks_chunks s] at hmem
  obtain ⟨c, hc, hdollar⟩ := exists_mem_tokenize_of_joinChunks (by decide) hmem
  exact (h c hc).dollar_notMem hdollar

/-! ### The keys of what is written -/

/-- The keys a list of chunks stands for -/
def ChunksMatch (cs key : List Bytes) : Prop :=
  Matches ChunkMatches (fun x ↦ ¬ StartsVerbatim x) (patternOf cs) key

theorem head?_untokenize_congr {q : List (Option UInt8)} (h : p.head? = q.head?) :
    (untokenize p).head? = (untokenize q).head? := by
  rcases p with _ | ⟨_ | a, p⟩ <;> rcases q with _ | ⟨_ | b, q⟩ <;> simp_all [untokenize]

theorem chunkMatches_collapseChunk (c x : Bytes) :
    ChunkMatches (collapseChunk c) x ↔ ChunkMatches c x := by
  have hstart : StartsVerbatim (collapseChunk c) ↔ StartsVerbatim c := by
    have hhead : (collapseChunk c).head? = c.head? := by
      rw [collapseChunk, head?_untokenize_congr (head?_collapse (tokenize c)), untokenize_tokenize]
    rw [StartsVerbatim, StartsVerbatim, hhead]
  have hstar : collapseChunk c = starChunk ↔ c = starChunk := collapseChunk_eq_single_iff
  rw [ChunkMatches, ChunkMatches, hstart, tokenize_collapseChunk_eq, (matches_collapse_iff _).1]
  simp only [hstar]

theorem matches_append_congr {p q q' : List (Option Bytes)} {plain : Bytes → Prop}
    (h : ∀ w, Matches ChunkMatches plain q w ↔ Matches ChunkMatches plain q' w) (w : List Bytes) :
    Matches ChunkMatches plain (p ++ q) w ↔ Matches ChunkMatches plain (p ++ q') w := by
  rw [matches_append_iff, matches_append_iff]
  simp only [h]

theorem chunksMatch_append_congr (P : List Bytes) {ds : List Bytes}
    (h : ∀ key, ChunksMatch cs key ↔ ChunksMatch ds key) (key : List Bytes) :
    ChunksMatch (P ++ cs) key ↔ ChunksMatch (P ++ ds) key := by
  simp only [ChunksMatch, patternOf, map_append] at *
  exact matches_append_congr h key

theorem chunksMatch_map_collapseChunk (cs : List Bytes) :
    ∀ key, ChunksMatch (cs.map collapseChunk) key ↔ ChunksMatch cs key := by
  induction cs with
  | nil => exact fun key ↦ Iff.rfl
  | cons c cs ih =>
    have hpattern : ∀ d ds, patternOf (d :: ds) =
        (if d = doubleStar then none else some d) :: patternOf ds := fun _ _ ↦ rfl
    intro key
    rw [ChunksMatch, ChunksMatch, map_cons, hpattern, hpattern,
      if_congr collapseChunk_eq_doubleStar_iff rfl rfl]
    split
    · exact matches_star_congr ih key
    · exact matches_letter_congr (chunkMatches_collapseChunk c) ih key

theorem chunksMatch_collapsed (s : Bytes) (key : List Bytes) :
    ChunksMatch (collapsed s) key ↔ KeyMatches s key := chunksMatch_map_collapseChunk _ key

/-- The chunks `*` and `$*` stand for the same chunks. -/
theorem chunkMatches_star (hc : c = starChunk ∨ c = dollarStar) (x : Bytes) :
    ChunkMatches c x ↔ ¬ StartsVerbatim x := by
  rcases hc with rfl | rfl
  · rw [ChunkMatches, if_pos rfl]
  · have hne : dollarStar ≠ starChunk := by decide
    have hstart : ¬ StartsVerbatim dollarStar := by decide
    have htok : tokenize dollarStar = [none] := rfl
    rw [ChunkMatches, if_neg hne, htok, matches_singleton_star_iff]
    simp [hstart]

/-- The rewriting keeps the keys: a pending `**` passes the `*` that are written before it. -/
theorem rewriteChunks_chunksMatch {X : List Bytes} :
    ∀ {big : Bool} {out : List Bytes}, rewriteChunks big X = some out →
      ∀ key, ChunksMatch out key ↔ ChunksMatch (pendingChunks big ++ X) key := by
  induction X with
  | nil =>
    intro big out h key
    rw [rewriteChunks, some.injEq] at h
    rw [← h, append_nil]
  | cons c cs ih =>
    intro big out h key
    rw [rewriteChunks] at h
    split_ifs at h with hstar hdouble hok
    · obtain ⟨out', hout', rfl⟩ := map_eq_some_iff.mp h
      have hne : c ≠ doubleStar := by rcases hstar with rfl | rfl <;> decide
      have hletter := matches_letter_congr (fun x ↦
        (chunkMatches_star (.inl rfl) x).trans (chunkMatches_star hstar x).symm) (ih hout') key
      have hfirst : patternOf (starChunk :: out') = some starChunk :: patternOf out' := rfl
      have hsecond : patternOf (c :: cs) = some c :: patternOf cs := by
        rw [patternOf, map_cons, if_neg hne]
        rfl
      rw [ChunksMatch, hfirst, hletter]
      cases big with
      | false =>
        have hpending : patternOf (pendingChunks false ++ c :: cs) = some c :: patternOf cs := hsecond
        rw [ChunksMatch, hpending]
        rfl
      | true =>
        have hpending : patternOf (pendingChunks true ++ c :: cs) =
            none :: some c :: patternOf cs := by
          rw [← hsecond]
          rfl
        rw [ChunksMatch, hpending, matches_star_letter_iff (chunkMatches_star hstar)]
        rfl
    · subst hdouble
      rw [ih h key]
      cases big with
      | false => rfl
      | true => exact matches_star_star_iff.symm
    · obtain ⟨out', hout', rfl⟩ := map_eq_some_iff.mp h
      refine chunksMatch_append_congr _ (fun key ↦ ?_) key
      exact chunksMatch_append_congr [c] (ih hout') key

end ZenohPico.Keyexpr
