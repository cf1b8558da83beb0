import ZenohPico.Keyexpr.CanonizeMeaning

/-!
When `_z_keyexpr_canonize` does what it is for: refuse exactly the malformed key expressions, and
turn the others into canonical ones with the same keys. The condition is read off the chunks of the
string, at the place where the scanner of the canonical prefix stops.

What goes wrong: the scanner does not look at chunks of one byte, the scan of the rewriting runs to
the end of the string and meets the `*` of other chunks there, the `*` for a `$*` is written
without regard to a `**` in front of it, and a `$` at the end is read together with what is behind
the string.
-/

namespace ZenohPico.Keyexpr

open Foundations List Option

/-! ### When the rewriting goes through -/

/-- The chunks `*`, `**` and `$*` -/
def WildChunk (c : Bytes) : Prop := c = starChunk ∨ c = doubleStar ∨ c = dollarStar

instance : DecidablePred WildChunk := fun _ ↦ inferInstanceAs (Decidable (_ ∨ _ ∨ _))

/-- What the rewriting takes behind the first chunk that is none of these -/
def TailChunk (c : Bytes) : Prop := WellFormedChunk c ∧ c ≠ starChunk ∧ c ≠ doubleStar

/-- The chunks that come before the first one other than `*`, `**` and `$*` -/
def leadWild (X : List Bytes) : List Bytes := X.takeWhile (WildChunk ·)

/-- The chunks from the first one other than `*`, `**` and `$*` on -/
def behindWild (X : List Bytes) : List Bytes := X.dropWhile (WildChunk ·)

/-- A `$*` is written as `*`. -/
def starred (c : Bytes) : Bytes := if c = dollarStar then starChunk else c

/-- The `*` that are written for some chunks `*`, `**` and `$*` -/
def starsOf (S : List Bytes) : List Bytes := (S.filter (· ≠ doubleStar)).map fun _ ↦ starChunk

theorem tailChunk_iff {c : Bytes} : TailChunk c ↔ c ≠ [] ∧ AllLetters Literal (tokenize c) := by
  constructor
  · rintro ⟨hstar | hdouble | hletters, hne, hne'⟩
    · exact absurd hstar hne
    · exact absurd hdouble hne'
    · exact hletters
  · intro h
    refine ⟨.inr (.inr h), ?_, ?_⟩
    · rintro rfl
      exact absurd (h.2 star (by decide)) (by decide)
    · rintro rfl
      exact absurd (h.2 star (by decide)) (by decide)

theorem reduced_append_letter {p q : List (Option UInt8)} {a : UInt8} :
    Reduced (p ++ some a :: q) ↔ Reduced p ∧ Reduced q := by
  rw [Reduced, isChain_split, isChain_append]
  simp [Reduced, isChain_cons]

variable {cs O : List Bytes} {t m : Bytes}

/-- The scan runs to the end of the string, over all chunks that are left. -/
theorem textStatus_tail {c : Bytes} : textStatus (c ++ tailText cs) = .success ↔
      ∀ d ∈ c :: cs, AllLetters Literal (tokenize d) ∧ Reduced (tokenize d) := by
  rw [textStatus_eq_success_iff, (scansOk_iff _).1]
  induction cs generalizing c with
  | nil => simp [tailText]
  | cons d cs ih =>
    rw [tailText_cons, tokenize_append_delimiter, reduced_append_letter, forall_mem_cons, ← ih]
    have hletters : AllLetters Literal (tokenize c ++ some delimiter :: tokenize (d ++ tailText cs)) ↔
        AllLetters Literal (tokenize c) ∧ AllLetters Literal (tokenize (d ++ tailText cs)) := by
      constructor
      · intro h
        exact ⟨h.of_subset (subset_append_left _ _), h.of_subset
          (List.Subset.trans (subset_cons_self _ _) (subset_append_right _ _))⟩
      · rintro ⟨hc, hd⟩ a ha
        rcases mem_append.mp ha with ha | ha
        · exact hc a ha
        · rcases mem_cons.mp ha with ha | ha
          · rw [some.inj ha]
            decide
          · exact hd a ha
    rw [hletters]
    exact and_and_and_comm

theorem rewriteChunks_tail (htail : ∀ c ∈ O, TailChunk c) (hred : ∀ c ∈ O, Reduced (tokenize c)) :
    rewriteChunks false O = some (O.map starred) := by
  induction O with
  | nil => rfl
  | cons c cs ih =>
    have hrest := ih (fun d hd ↦ htail d (mem_cons_of_mem _ hd))
      fun d hd ↦ hred d (mem_cons_of_mem _ hd)
    obtain ⟨-, hstar, hdouble⟩ := htail c mem_cons_self
    rw [rewriteChunks, map_cons, starred]
    by_cases hdollar : c = dollarStar
    · rw [if_pos (.inr hdollar), if_pos hdollar, hrest]
      rfl
    · have hok : c ≠ [] ∧ textStatus (c ++ tailText cs) = .success :=
        ⟨(tailChunk_iff.mp (htail c mem_cons_self)).1, textStatus_tail.mpr fun d hd ↦
          ⟨(tailChunk_iff.mp (htail d hd)).2, hred d hd⟩⟩
      rw [if_neg (not_or.mpr ⟨hstar, hdollar⟩), if_neg hdouble, if_pos hok, if_neg hdollar, hrest]
      rfl

theorem ne_nil_of_rewriteChunks :
    ∀ {big : Bool} {out : List Bytes}, rewriteChunks big cs = some out → ∀ d ∈ cs, d ≠ [] := by
  induction cs with
  | nil => simp
  | cons c cs ih =>
    intro big out h
    rw [rewriteChunks] at h
    rw [forall_mem_cons]
    split_ifs at h with hstar hdouble hok
    · obtain ⟨out', hout', -⟩ := map_eq_some_iff.mp h
      exact ⟨by rcases hstar with rfl | rfl <;> decide, ih hout'⟩
    · exact ⟨by rw [hdouble]; decide, ih h⟩
    · obtain ⟨out', hout', -⟩ := map_eq_some_iff.mp h
      exact ⟨hok.1, ih hout'⟩

/-- The rewriting from the first chunk on that is none of `*`, `**` and `$*` -/
theorem rewriteChunks_ordinary (hhead : ∀ c ∈ O.head?, ¬ WildChunk c)
    (hred : ∀ c ∈ O, Reduced (tokenize c)) (big : Bool) : ((∀ c ∈ O, TailChunk c) →
        rewriteChunks big O = some (pendingChunks big ++ O.map starred)) ∧
      (¬ (∀ c ∈ O, TailChunk c) → rewriteChunks big O = none) := by
  cases O with
  | nil => exact ⟨fun _ ↦ by rw [rewriteChunks, map_nil, append_nil],
      fun h ↦ absurd (by simp) h⟩
  | cons c cs =>
    have hwild := hhead c rfl
    simp only [WildChunk, not_or] at hwild
    obtain ⟨hstar, hdouble, hdollar⟩ := hwild
    rw [rewriteChunks, if_neg (not_or.mpr ⟨hstar, hdollar⟩), if_neg hdouble]
    constructor
    · intro h
      have hok : c ≠ [] ∧ textStatus (c ++ tailText cs) = .success :=
        ⟨(tailChunk_iff.mp (h c mem_cons_self)).1, textStatus_tail.mpr fun d hd ↦
          ⟨(tailChunk_iff.mp (h d hd)).2, hred d hd⟩⟩
      have hrest := rewriteChunks_tail (fun d hd ↦ h d (mem_cons_of_mem _ hd))
        fun d hd ↦ hred d (mem_cons_of_mem _ hd)
      rw [if_pos hok, hrest, map_cons, starred, if_neg hdollar]
      rfl
    · intro h
      split
      · next hok =>
        cases hrest : rewriteChunks false cs with
        | none => rfl
        | some out =>
          refine absurd (forall_mem_cons.mpr ⟨?_, fun d hd ↦ ?_⟩) h
          · exact tailChunk_iff.mpr ⟨hok.1, (textStatus_tail.mp hok.2 c mem_cons_self).1⟩
          · exact tailChunk_iff.mpr ⟨ne_nil_of_rewriteChunks hrest d hd,
              (textStatus_tail.mp hok.2 d (mem_cons_of_mem _ hd)).1⟩
      · rfl

theorem rewriteChunks_wild {S : List Bytes} (hwild : ∀ c ∈ S, WildChunk c) (big : Bool) :
    rewriteChunks big (S ++ O) =
      (rewriteChunks (big || decide (doubleStar ∈ S)) O).map fun out ↦ starsOf S ++ out := by
  induction S generalizing big with
  | nil => simp [starsOf]
  | cons c S ih =>
    have hrest := ih fun d hd ↦ hwild d (mem_cons_of_mem _ hd)
    rw [cons_append, rewriteChunks]
    by_cases hdouble : c = doubleStar
    · have hne : ¬ (c = starChunk ∨ c = dollarStar) := by rw [hdouble]; decide
      rw [if_neg hne, if_pos hdouble, hrest]
      simp [starsOf, hdouble]
    · have hstar : c = starChunk ∨ c = dollarStar := by
        rcases hwild c mem_cons_self with h | h | h
        · exact .inl h
        · exact absurd h hdouble
        · exact .inr h
      rw [if_pos hstar, hrest]
      simp [starsOf, hdouble, Ne.symm hdouble, Function.comp_def]

theorem leadWild_append_behindWild (X : List Bytes) : leadWild X ++ behindWild X = X :=
  takeWhile_append_dropWhile

theorem wildChunk_of_mem_leadWild {X : List Bytes} {c : Bytes} (h : c ∈ leadWild X) :
    WildChunk c := by simpa using all_eq_true.mp all_takeWhile c h

theorem mem_of_mem_behindWild {X : List Bytes} {c : Bytes} (h : c ∈ behindWild X) : c ∈ X :=
  (dropWhile_sublist _).subset h

theorem not_wildChunk_head {X : List Bytes} : ∀ c ∈ (behindWild X).head?, ¬ WildChunk c := by
  intro c hc
  have hhead := List.head?_dropWhile_not (fun c ↦ decide (WildChunk c)) X
  rw [mem_def, behindWild] at hc
  rw [hc] at hhead
  simpa using hhead

/-- The chunks are rewritten: behind the first one other than `*`, `**` and `$*` there is no more
`*` or `**`, and what is there is well-formed. -/
def Rewritable (X : List Bytes) : Prop := ∀ c ∈ behindWild X, TailChunk c

/-- What the rewriting makes of chunks without repetitions -/
theorem rewriteChunks_eq {X : List Bytes} (hred : ∀ c ∈ X, Reduced (tokenize c)) (big : Bool) :
    (Rewritable X → rewriteChunks big X = some (starsOf (leadWild X) ++
      (pendingChunks (big || decide (doubleStar ∈ leadWild X)) ++ (behindWild X).map starred))) ∧
      (¬ Rewritable X → rewriteChunks big X = none) := by
  have hall := rewriteChunks_wild (O := behindWild X)
    (fun c hc ↦ wildChunk_of_mem_leadWild (X := X) hc) big
  rw [leadWild_append_behindWild] at hall
  have hrest := rewriteChunks_ordinary (not_wildChunk_head (X := X))
    (fun c hc ↦ hred c (mem_of_mem_behindWild hc)) (big || decide (doubleStar ∈ leadWild X))
  rw [hall]
  exact ⟨fun h ↦ by rw [hrest.1 h]; rfl, fun h ↦ by rw [hrest.2 h]; rfl⟩

theorem Rewritable.wellFormed {X : List Bytes} (h : Rewritable X) : ∀ c ∈ X, WellFormedChunk c := by
  intro c hc
  rw [← leadWild_append_behindWild X, mem_append] at hc
  rcases hc with hc | hc
  · rcases wildChunk_of_mem_leadWild hc with rfl | rfl | rfl
    · exact .inl rfl
    · exact .inr (.inl rfl)
    · exact .inr (.inr ⟨by decide, by decide⟩)
  · exact (h c hc).1

/-! ### When the result is canonical -/

/-- Chunks of one byte lead to a `$*`. -/
def LeadsToDollarStar (cs : List Bytes) : Prop :=
  ∃ run rest, cs = run ++ dollarStar :: rest ∧ ∀ d ∈ run, d.length = 1

theorem looseChunk_starred {c : Bytes} (h : TailChunk c) (hred : Reduced (tokenize c)) :
    LooseChunk (starred c) := by
  rw [starred]
  split
  · exact .inr rfl
  · next hne =>
    obtain ⟨hnil, hletters⟩ := tailChunk_iff.mp h
    have htok : tokenize c ≠ [none] := fun htok ↦ hne (tokenize_injective htok)
    exact .inl (canonicalChunk_iff.mpr (.inr (.inr ⟨hnil, hletters, hred, htok⟩)))

theorem starred_ne_doubleStar {c : Bytes} (h : TailChunk c) : starred c ≠ doubleStar := by
  rw [starred]
  split
  · decide
  · exact h.2.2

theorem starred_eq_starChunk_iff {c : Bytes} (h : TailChunk c) :
    starred c = starChunk ↔ c = dollarStar := by
  rw [starred]
  split
  · next hdollar => exact ⟨fun _ ↦ hdollar, fun _ ↦ rfl⟩
  · next hne => exact ⟨fun hstar ↦ absurd hstar h.2.1, fun hdollar ↦ absurd hdollar hne⟩

theorem leadsToWild_starred_iff (htail : ∀ c ∈ O, TailChunk c) :
    LeadsToWild (O.map starred) ↔ LeadsToDollarStar O := by
  constructor
  · rintro ⟨run, c, rest, heq, hrun, hc⟩
    obtain ⟨run', O', rfl, rfl, hO'⟩ := map_eq_append_iff.mp heq
    obtain ⟨d, rest', rfl, hd, -⟩ := map_eq_cons_iff.mp hO'
    have hmem : d ∈ run' ++ d :: rest' := by simp
    have hstar : starred d = starChunk := by
      rw [hd]
      rcases hc with hc | hc
      · exact hc
      · exact absurd (hd.trans hc) (starred_ne_doubleStar (htail d hmem))
    obtain rfl := (starred_eq_starChunk_iff (htail d hmem)).mp hstar
    -- an earlier `$*` is taken where there is one
    by_cases hearlier : dollarStar ∈ run'
    · obtain ⟨u, v, rfl, hu⟩ := eq_append_cons_of_mem hearlier
      refine ⟨u, v ++ dollarStar :: rest', by simp, fun e he ↦ ?_⟩
      have hone := hrun (starred e) (mem_map_of_mem (mem_append_left _ he))
      have hne : e ≠ dollarStar := fun heq ↦ hu (heq ▸ he)
      rwa [starred, if_neg hne] at hone
    · refine ⟨run', rest', rfl, fun e he ↦ ?_⟩
      have hone := hrun (starred e) (mem_map_of_mem he)
      have hne : e ≠ dollarStar := fun heq ↦ hearlier (heq ▸ he)
      rwa [starred, if_neg hne] at hone
  · rintro ⟨run, rest, rfl, hrun⟩
    refine ⟨run.map starred, starChunk, rest.map starred, by simp [starred], ?_, .inl rfl⟩
    intro d hd
    obtain ⟨e, he, rfl⟩ := List.mem_map.mp hd
    have hne : e ≠ dollarStar := by
      rintro rfl
      exact absurd (hrun _ he) (by decide)
    rw [starred, if_neg hne]
    exact hrun e he

/-- The scanner on what is written behind the first chunk other than `*`, `**` and `$*` -/
theorem passState_starred (htail : ∀ c ∈ O, TailChunk c) (hred : ∀ c ∈ O, Reduced (tokenize c))
    (big : Bool) :
    (passState big (O.map starred)).isSome ↔ (big = true → ¬ LeadsToDollarStar O) := by
  rw [passState_isSome_iff, leadsToWild_starred_iff htail]
  have hloose : ∀ c ∈ O.map starred, LooseChunk c := by
    rw [List.forall_mem_map]
    exact fun c hc ↦ looseChunk_starred (htail c hc) (hred c hc)
  have hblocked : ¬ Blocked (O.map starred) := by
    rintro ⟨before, rest, heq, -⟩
    obtain ⟨c, hc, hdouble⟩ := List.mem_map.mp
      (show doubleStar ∈ O.map starred by rw [heq]; simp)
    exact starred_ne_doubleStar (htail c hc) hdouble
  exact ⟨fun h ↦ h.2.2, fun h ↦ ⟨hloose, hblocked, h⟩⟩

theorem passState_starsOf (S cs : List Bytes) :
    passState false (starsOf S ++ cs) = passState false cs := by
  rw [starsOf]
  induction S.filter (· ≠ doubleStar) with
  | nil => rfl
  | cons c S ih => exact ih

/-- The scanner on what is written for some chunks -/
theorem passState_rewritten {X : List Bytes} (hred : ∀ c ∈ X, Reduced (tokenize c))
    (h : Rewritable X) (big : Bool) :
    (passState false (starsOf (leadWild X) ++ (pendingChunks big ++
        (behindWild X).map starred))).isSome ↔
      (big = true → ¬ LeadsToDollarStar (behindWild X)) := by
  have hbehind := passState_starred h fun c hc ↦ hred c (mem_of_mem_behindWild hc)
  rw [passState_starsOf]
  cases big with
  | false =>
    have hnone := hbehind false
    simpa [pendingChunks] using hnone
  | true =>
    have hpass : passState false (pendingChunks true ++ (behindWild X).map starred) =
        passState true ((behindWild X).map starred) := rfl
    rw [hpass, hbehind]

/-! ### What canonization is for -/

/-- `_z_keyexpr_canonize` does with a string what it is for, where `behind` is in memory behind it:
no assertion fails, it succeeds exactly with the well-formed ones, and its result is a canonical one
with the same keys, not longer, and left as it is when it is canonized again, whatever is behind it
then. A canonical string is left as it is. -/
structure Canonizes (s behind : Bytes) : Prop where
  returns : keyexprCanonize (s ++ behind) s.length ≠ .aborted
  success_iff :
    (∃ m len, keyexprCanonize (s ++ behind) s.length = .returned .success m len) ↔ WellFormed s
  output : ∀ m len, keyexprCanonize (s ++ behind) s.length = .returned .success m len →
    keyexprIsCanon (m.take len) len = .success ∧
      (∀ key, KeyMatches (m.take len) key ↔ KeyMatches s key) ∧ len ≤ s.length ∧
      ∀ later, keyexprCanonize (m.take len ++ later) len =
        .returned .success (m.take len ++ later) len
  unchanged : Canonical s →
    keyexprCanonize (s ++ behind) s.length = .returned .success (s ++ behind) s.length

theorem CanonicalChunk.wellFormedChunk {c : Bytes} (h : CanonicalChunk c) : WellFormedChunk c := by
  rcases canonicalChunk_iff.mp h with rfl | rfl | ⟨hne, hletters, -, -⟩
  · exact .inr (.inl rfl)
  · exact .inl rfl
  · exact .inr (.inr ⟨hne, hletters⟩)

theorem Canonical.wellFormed {s : Bytes} (h : Canonical s) : WellFormed s :=
  fun c hc ↦ (h.chunk c hc).wellFormedChunk

theorem reduced_of_canonicalChunk {c : Bytes} (h : CanonicalChunk c) : Reduced (tokenize c) := by
  rcases canonicalChunk_iff.mp h with rfl | rfl | ⟨-, -, hred, -⟩
  · decide
  · decide
  · exact hred

theorem Canonical.collapsed {s : Bytes} (h : Canonical s) : collapsed s = chunks s := by
  rw [Keyexpr.collapsed]
  exact (map_congr_left fun c hc ↦
    collapseChunk_of_reduced (reduced_of_canonicalChunk (h.chunk c hc))).trans (map_id _)

theorem reduced_joinChunks (h : ∀ c ∈ cs, Reduced (tokenize c)) :
    Reduced (tokenize (joinChunks cs)) := by
  induction cs with
  | nil => exact .nil
  | cons c cs ih =>
    have hrest := ih fun d hd ↦ h d (mem_cons_of_mem _ hd)
    rcases eq_or_ne cs [] with rfl | hcs
    · rw [joinChunks_singleton]
      exact h c mem_cons_self
    · rw [joinChunks_cons c hcs, tokenize_append_delimiter, reduced_append_letter]
      exact ⟨h c mem_cons_self, hrest⟩

theorem length_le_append (s behind : Bytes) : s.length ≤ (s ++ behind).length :=
  (prefix_append s behind).length_le

/-- What is accepted as canonical is left as it is, if it does not end with a `$` in front of a
`*`. -/
theorem keyexprCanonize_of_isCanon {behind : Bytes} (h : keyexprIsCanon t t.length = .success)
    (hread : ¬ Overread t behind) :
    keyexprCanonize (t ++ behind) t.length = .returned .success (t ++ behind) t.length := by
  have hpass := (keyexprIsCanon_eq_success_iff t).mp h
  have hred : ∀ c ∈ chunks t, Reduced (tokenize c) := by
    intro c hc
    rcases (passState_isSome_iff.mp hpass).1 c hc with hcanon | hone
    · exact reduced_of_canonicalChunk hcanon
    · obtain ⟨b, rfl⟩ := length_eq_one_iff.mp hone
      exact .singleton _
  have hsame : collapsed t = chunks t := by
    rw [collapsed]
    exact (map_congr_left fun c hc ↦ collapseChunk_of_reduced (hred c hc)).trans
      (map_id _)
  have htext : singleText (t ++ behind) t.length = t := by
    rw [singleText_eq_joinChunks, readText_of_not_overread hread, hsame, joinChunks_chunks]
  obtain ⟨big, hbig⟩ := isSome_iff_exists.mp hpass
  have hscan : passState false (chunks (singleText (t ++ behind) t.length)) = some big := by
    rw [htext]
    exact hbig
  obtain ⟨m', hcall, -, -, hself⟩ := keyexprCanonize_passed (length_le_append t behind) hscan
  have htokens : memTokens (t ++ behind) t.length = tokenize t := by
    rw [memTokens_append, readText_of_not_overread hread]
  have hall := reduced_joinChunks hred
  rw [joinChunks_chunks] at hall
  rw [hcall, htext, hself (by rw [htokens]; exact hall)]

theorem take_drop_of_reads {b : ℕ} (h : Reads m b t) (hlen : b + t.length ≤ m.length) :
    (m.drop b).take t.length = t := by
  induction t generalizing b with
  | nil => rfl
  | cons a t ih =>
    rw [length_cons] at hlen
    have hlt : b < m.length := by omega
    have hbyte : m[b] = a := by
      have hread := h.1
      rwa [byteAt, getD_eq_getElem _ _ hlt] at hread
    rw [drop_eq_getElem_cons hlt, length_cons, take_succ_cons, hbyte, ih h.2 (by omega)]

theorem take_of_reads (h : Reads m 0 t) (hlen : t.length ≤ m.length) :
    m.take t.length = t := take_drop_of_reads h (by omega)

/-- The call succeeds with the given chunks. -/
theorem canonizes_iff_of_success {s behind : Bytes}
    (hcall : keyexprCanonize (s ++ behind) s.length = .returned .success m (joinChunks cs).length)
    (hreads : Reads m 0 (joinChunks cs)) (hlen : m.length = (s ++ behind).length)
    (hle : (joinChunks cs).length ≤ s.length) (hne : cs ≠ []) (hfree : ∀ c ∈ cs, delimiter ∉ c)
    (hkeys : ∀ key, ChunksMatch cs key ↔ KeyMatches s key)
    (hwritten : WellFormed s → ∀ c ∈ cs, WellFormedChunk c)
    (hunchanged : Canonical s → keyexprIsCanon s s.length = .success) :
    Canonizes s behind ↔ WellFormed s ∧ (passState false cs).isSome := by
  have hchunks : chunks (joinChunks cs) = cs := chunks_joinChunks hne hfree
  have htake : m.take (joinChunks cs).length = joinChunks cs :=
    take_of_reads hreads (by rw [hlen]; exact hle.trans (length_le_append s behind))
  have hcanon : keyexprIsCanon (joinChunks cs) (joinChunks cs).length = .success ↔
      (passState false cs).isSome := by rw [keyexprIsCanon_eq_success_iff, hchunks]
  constructor
  · intro h
    have hout := (h.output m _ hcall).1
    rw [htake] at hout
    exact ⟨h.success_iff.mp ⟨_, _, hcall⟩, hcanon.mp hout⟩
  · rintro ⟨hwell, hpass⟩
    have hout := hcanon.mpr hpass
    have hjoined : WellFormed (joinChunks cs) := fun c hc ↦ hwritten hwell c (hchunks ▸ hc)
    refine ⟨by rw [hcall]; simp, ⟨fun _ ↦ hwell, fun _ ↦ ⟨_, _, hcall⟩⟩, ?_, fun h ↦
      keyexprCanonize_of_isCanon (hunchanged h) (h.wellFormed.not_overread behind)⟩
    intro m' len' h
    rw [hcall] at h
    cases h
    rw [htake]
    refine ⟨hout, fun key ↦ ?_, hle, fun later ↦
      keyexprCanonize_of_isCanon hout (hjoined.not_overread later)⟩
    rw [← hkeys key, KeyMatches, hchunks]
    rfl

/-- The call fails. -/
theorem canonizes_iff_of_error {s behind : Bytes} {status : CanonStatus} {len : ℕ}
    (hcall : keyexprCanonize (s ++ behind) s.length = .returned status m len)
    (hstatus : status ≠ .success) : Canonizes s behind ↔ ¬ WellFormed s := by
  have hnone : ¬ ∃ m len, keyexprCanonize (s ++ behind) s.length = .returned .success m len := by
    rintro ⟨m', len', h⟩
    rw [hcall] at h
    cases h
    exact hstatus rfl
  constructor
  · exact fun h hwell ↦ hnone (h.success_iff.mpr hwell)
  · intro h
    refine ⟨by rw [hcall]; simp, ⟨fun hsuccess ↦ absurd hsuccess hnone, fun hwell ↦ absurd hwell h⟩,
      fun m' len' hsuccess ↦ absurd ⟨m', len', hsuccess⟩ hnone, fun hcanon ↦
      absurd hcanon.wellFormed h⟩

/-! ### Where the scanner stops -/

section Stops

variable {s : Bytes} {P X : List Bytes} {big : Bool} {c : Bytes} {status : CanonStatus}

theorem chunkPass_done_cases (h : chunkPass big c = .done status) :
    status.malformed = true ∧ ¬ (WellFormedChunk c ∧ Reduced (tokenize c)) ∨
      status = .loneDollarStar ∧ c = dollarStar ∨
      big = true ∧ (c = starChunk ∧ status = .singleStarAfterDoubleStar ∨
        c = doubleStar ∧ status = .doubleStarAfterDoubleStar) := by
  rw [chunkPass] at h
  split_ifs at h with hzero hone hstar hlone hdouble hbig
  · cases h
    obtain rfl := length_eq_zero_iff.mp hzero
    exact .inl ⟨rfl, fun hwell ↦ absurd hwell.1 (by decide)⟩
  · cases h
    exact .inr (.inr ⟨hstar.1, .inl ⟨hstar.2, rfl⟩⟩)
  · cases h
    exact .inr (.inl ⟨rfl, hlone⟩)
  · cases h
    exact .inr (.inr ⟨hbig, .inr ⟨hdouble, rfl⟩⟩)
  · have hne : textStatus c ≠ .success := by
      intro hok
      rw [hok] at h
      cases h
    have hsame : textStatus c = status := by
      cases htext : textStatus c with
      | success => exact absurd htext hne
      | _ =>
        rw [htext] at h
        exact Pass.done.inj h
    refine .inl ⟨hsame ▸ (textStatus_cases c).resolve_left hne, ?_⟩
    rintro ⟨hstar | hdouble' | ⟨hnil, hletters⟩, hred⟩
    · exact hone (by rw [hstar]; rfl)
    · exact hdouble hdouble'
    · refine hne ((textStatus_eq_success_iff_letter (by omega) hlone).mpr
        (.inr ⟨hnil, hletters, hred, fun htok ↦ hlone (tokenize_injective htok)⟩))

/-- The flag is set by a `**`, and kept by the chunks of one byte behind it. -/
theorem exists_last_of_passState (h : passState false P = some true) :
    ∃ P' d, P = P' ++ [d] ∧ (d = doubleStar ∨ P' ≠ [] ∧ d.length = 1) := by
  rcases eq_nil_or_concat P with rfl | ⟨P', d, rfl⟩
  · cases h
  · rw [concat_eq_append] at h ⊢
    refine ⟨P', d, rfl, ?_⟩
    rw [passState_append] at h
    obtain ⟨before, hbefore, hlast⟩ := bind_eq_some_iff.mp h
    have hpass : chunkPass before d = .next true := by
      rw [passState] at hlast
      cases hd : chunkPass before d with
      | next big =>
        rw [hd] at hlast
        exact congrArg Pass.next (some.inj hlast)
      | done status =>
        rw [hd] at hlast
        cases hlast
    rw [chunkPass] at hpass
    split_ifs at hpass with hzero hone hstar hlone hdouble hbig
    · right
      refine ⟨?_, hone⟩
      rintro rfl
      cases hbefore
      cases hpass
    · exact .inl hdouble
    · split at hpass <;> cases hpass

theorem wildChunk_of_stop (h : c = starChunk ∨ c = doubleStar) : WildChunk c :=
  h.imp_right .inl

theorem behindWild_cons (h : WildChunk c) : behindWild (c :: X) = behindWild X :=
  dropWhile_cons_of_pos (by simpa using h)

end Stops

/-- The condition on the rest `X` of the chunks, the scanner having passed `P`: it is rewritten and
the whole is well-formed, and no `**` that is written comes to stand before a `*` but for chunks of
one byte; or it is not rewritten, and something is malformed. -/
def RestFine (s : Bytes) (P X : List Bytes) (pending : Prop) : Prop :=
  Rewritable X ∧ (∀ c ∈ P, WellFormedChunk c) ∧ (pending → ¬ LeadsToDollarStar (behindWild X)) ∨
    ¬ Rewritable X ∧ ¬ WellFormed s

section Rewriting

variable {s behind : Bytes} {P X : List Bytes} {big : Bool} {c : Bytes} {status : CanonStatus}

/-- Nothing malformed is written for what is well-formed. -/
theorem wellFormedChunk_of_rewriteChunks (hwell : ∀ c ∈ cs, WellFormedChunk c) :
    ∀ {big : Bool} {out : List Bytes}, rewriteChunks big cs = some out →
      ∀ c ∈ out, WellFormedChunk c := by
  have hpending : ∀ big, ∀ c ∈ pendingChunks big, WellFormedChunk c := by decide
  induction cs with
  | nil =>
    intro big out h
    rw [rewriteChunks, some.injEq] at h
    exact h ▸ hpending big
  | cons d cs ih =>
    intro big out h
    have hrest := fun {big out} ↦ @ih (fun c hc ↦ hwell c (mem_cons_of_mem _ hc)) big out
    rw [rewriteChunks] at h
    split_ifs at h
    · obtain ⟨out', hout', rfl⟩ := map_eq_some_iff.mp h
      exact forall_mem_cons.mpr ⟨.inl rfl, hrest hout'⟩
    · exact hrest h
    · obtain ⟨out', hout', rfl⟩ := map_eq_some_iff.mp h
      intro c hc
      rcases mem_append.mp hc with hc | hc
      · exact hpending big c hc
      · rcases mem_cons.mp hc with rfl | hc
        · exact hwell c mem_cons_self
        · exact hrest hout' c hc

theorem delimiter_notMem_rewriteChunks (hfree : ∀ c ∈ cs, delimiter ∉ c) :
    ∀ {big : Bool} {out : List Bytes}, rewriteChunks big cs = some out →
      ∀ c ∈ out, delimiter ∉ c := by
  have hpending : ∀ big, ∀ c ∈ pendingChunks big, delimiter ∉ c := by decide
  induction cs with
  | nil =>
    intro big out h
    rw [rewriteChunks, some.injEq] at h
    exact h ▸ hpending big
  | cons d cs ih =>
    intro big out h
    have hrest := fun {big out} ↦ @ih (fun c hc ↦ hfree c (mem_cons_of_mem _ hc)) big out
    rw [rewriteChunks] at h
    split_ifs at h
    · obtain ⟨out', hout', rfl⟩ := map_eq_some_iff.mp h
      exact forall_mem_cons.mpr ⟨by decide, hrest hout'⟩
    · exact hrest h
    · obtain ⟨out', hout', rfl⟩ := map_eq_some_iff.mp h
      intro c hc
      rcases mem_append.mp hc with hc | hc
      · exact hpending big c hc
      · rcases mem_cons.mp hc with rfl | hc
        · exact hfree c mem_cons_self
        · exact hrest hout' c hc

/-- What the string is like, and how the call ends, when the chunks behind `P` are rewritten -/
theorem canonizes_of_ends {o : Option (List Bytes)} (hread : ¬ Overread s behind)
    (hends : CanonizeEnds (s ++ behind) s.length P o) (hP : ∀ c ∈ P, delimiter ∉ c)
    (hfree : ∀ out, o = some out → ∀ c ∈ out, delimiter ∉ c)
    (hne : ∀ out, o = some out → out ≠ [])
    (hkeys : ∀ out, o = some out → ∀ key, ChunksMatch (P ++ out) key ↔ KeyMatches s key)
    (hwritten : WellFormed s → ∀ out, o = some out → ∀ c ∈ P ++ out, WellFormedChunk c)
    (hcanon : ¬ Canonical s) : (∀ out, o = some out →
      (Canonizes s behind ↔ WellFormed s ∧ (passState false (P ++ out)).isSome)) ∧
      (o = none → (Canonizes s behind ↔ ¬ WellFormed s)) := by
  constructor
  · rintro out rfl
    obtain ⟨m', hcall, hreads, hlen, hle, -⟩ := hends
    refine canonizes_iff_of_success hcall hreads hlen
      (hle.trans (length_singleText_le_of_not_overread hread)) (by simp [hne out rfl]) ?_
      (hkeys out rfl) (fun hwell ↦ hwritten hwell out rfl) fun h ↦ absurd h hcanon
    intro c hc
    rcases mem_append.mp hc with hc | hc
    · exact hP c hc
    · exact hfree out rfl c hc
  · rintro rfl
    obtain ⟨status, m', hcall, hstatus⟩ := hends
    exact canonizes_iff_of_error hcall hstatus

theorem delimiter_notMem_of_mem_collapsed {d : Bytes} (h : d ∈ collapsed s) : delimiter ∉ d := by
  obtain ⟨e, he, rfl⟩ := List.mem_map.mp h
  exact delimiter_notMem_collapseChunk (delimiter_notMem_of_mem_chunks he)

theorem wellFormed_iff_of_split {Y : List Bytes} (hsplit : collapsed s = P ++ Y) :
    WellFormed s ↔ (∀ c ∈ P, WellFormedChunk c) ∧ ∀ c ∈ Y, WellFormedChunk c := by
  rw [wellFormed_iff_collapsed, hsplit, forall_mem_append]

/-- The scanner stops at a `$*`. -/
theorem canonizes_iff_lone (hread : ¬ Overread s behind)
    (h : StopsAt (collapsed s) P big dollarStar X .loneDollarStar) :
    Canonizes s behind ↔ RestFine s P X (doubleStar ∈ leadWild X) ∧ (Rewritable X → big = false) := by
  have hmem : ∀ d ∈ P ++ dollarStar :: X, d ∈ collapsed s := fun d hd ↦ h.split ▸ hd
  have hX : ∀ d ∈ X, d ∈ collapsed s := fun d hd ↦ hmem d (by simp [hd])
  have hred : ∀ d ∈ X, Reduced (tokenize d) := fun d hd ↦ reduced_of_mem_collapsed (hX d hd)
  have hfreeX : ∀ d ∈ X, delimiter ∉ d := fun d hd ↦ delimiter_notMem_of_mem_collapsed (hX d hd)
  have hcanon : ¬ Canonical s := by
    intro hcanon
    have hin := hmem dollarStar (by simp)
    rw [hcanon.collapsed] at hin
    exact (hcanon.chunk _ hin).not_lone rfl
  have hwell := wellFormed_iff_of_split h.split
  have hends := keyexprCanonize_lone (length_le_append s behind)
    (by rw [chunks_singleText, readText_of_not_overread hread]; exact h)
  have hall := canonizes_of_ends hread hends
    (fun d hd ↦ delimiter_notMem_of_mem_collapsed (hmem d (by simp [hd]))) (fun out hout ↦ ?_)
    (fun out hout ↦ ?_) (fun out hout key ↦ ?_) (fun hs out hout ↦ ?_) hcanon
  · obtain ⟨hsome, hnone⟩ := rewriteChunks_eq hred false
    by_cases hrewrite : Rewritable X
    · have hpass := hall.1 _ (by rw [hsome hrewrite]; rfl)
      have hX' : ∀ c ∈ dollarStar :: X, WellFormedChunk c :=
        forall_mem_cons.mpr ⟨by decide, hrewrite.wellFormed⟩
      have hscan : ∀ Y, (passState big (starChunk :: Y)).isSome ↔
          big = false ∧ (passState false Y).isSome := by
        intro Y
        cases big with
        | false => exact (and_iff_right rfl).symm
        | true => exact iff_of_false Bool.false_ne_true fun hfalse ↦ absurd hfalse.1 (by decide)
      rw [hpass, hwell, passState_append, h.passed, bind_some, hscan,
        passState_rewritten hred hrewrite, Bool.false_or, decide_eq_true_iff]
      simp only [RestFine, hrewrite, not_true, true_and, false_and, or_false, true_implies]
      rw [and_iff_left hX', and_assoc]
      exact and_congr_right fun _ ↦ and_comm
    · rw [hall.2 (by rw [hnone hrewrite]; rfl)]
      simp [RestFine, hrewrite]
  · obtain ⟨out', hout', rfl⟩ := map_eq_some_iff.mp hout
    exact forall_mem_cons.mpr ⟨by decide, delimiter_notMem_rewriteChunks hfreeX hout'⟩
  · obtain ⟨out', -, rfl⟩ := map_eq_some_iff.mp hout
    simp
  · obtain ⟨out', hout', rfl⟩ := map_eq_some_iff.mp hout
    rw [← chunksMatch_collapsed, h.split]
    refine chunksMatch_append_congr P (fun key ↦ ?_) key
    exact matches_letter_congr (fun x ↦ (chunkMatches_star (.inl rfl) x).trans
      (chunkMatches_star (.inr rfl) x).symm) (rewriteChunks_chunksMatch hout') key
  · obtain ⟨out', hout', rfl⟩ := map_eq_some_iff.mp hout
    obtain ⟨hP, hrest⟩ := hwell.mp hs
    refine forall_mem_append.mpr ⟨hP, forall_mem_cons.mpr ⟨.inl rfl, ?_⟩⟩
    exact wellFormedChunk_of_rewriteChunks (forall_mem_cons.mp hrest).2 hout'

/-- The scanner stops at a `*` or a `**` right behind a `**`. -/
theorem canonizes_iff_wild (hread : ¬ Overread s behind)
    (h : StopsAt (collapsed s) (P ++ [doubleStar]) big c X status)
    (hstatus : c = starChunk ∧ status = .singleStarAfterDoubleStar ∨
      c = doubleStar ∧ status = .doubleStarAfterDoubleStar) :
    Canonizes s behind ↔ RestFine s P X True := by
  have hsplit : collapsed s = P ++ doubleStar :: c :: X := by simp [h.split]
  have hc : c = starChunk ∨ c = doubleStar := hstatus.imp And.left And.left
  have hX : ∀ d ∈ c :: X, d ∈ collapsed s := fun d hd ↦ by
    rw [hsplit]
    exact mem_append_right _ (mem_cons_of_mem _ hd)
  have hred : ∀ d ∈ c :: X, Reduced (tokenize d) := fun d hd ↦ reduced_of_mem_collapsed (hX d hd)
  have hfreeX : ∀ d ∈ c :: X, delimiter ∉ d :=
    fun d hd ↦ delimiter_notMem_of_mem_collapsed (hX d hd)
  have hcanon : ¬ Canonical s := by
    intro hcanon
    have hchain := hcanon.after_double_star
    rw [← hcanon.collapsed, hsplit, isChain_append, isChain_cons_cons] at hchain
    obtain ⟨hstar, hdouble⟩ := hchain.2.1.1 rfl
    exact hc.elim hstar hdouble
  have hwell := wellFormed_iff_of_split hsplit
  have hends := keyexprCanonize_wild (length_le_append s behind)
    (by rw [chunks_singleText, readText_of_not_overread hread]; exact h)
    (hstatus.imp And.right And.right)
  have hall := canonizes_of_ends hread hends
    (fun d hd ↦ delimiter_notMem_of_mem_collapsed
      (by rw [hsplit]; exact mem_append_left _ hd))
    (fun out hout ↦ delimiter_notMem_rewriteChunks hfreeX hout)
    (fun out hout ↦ rewriteChunks_ne_nil hout) (fun out hout key ↦ ?_) (fun hs out hout ↦ ?_) hcanon
  · obtain ⟨hsome, hnone⟩ := rewriteChunks_eq hred true
    have hwild := wildChunk_of_stop hc
    have hrewritable : Rewritable (c :: X) ↔ Rewritable X := by
      rw [Rewritable, Rewritable, behindWild_cons hwild]
    by_cases hrewrite : Rewritable (c :: X)
    · have hpass := hall.1 _ (hsome hrewrite)
      have hX' : ∀ d ∈ doubleStar :: c :: X, WellFormedChunk d :=
        forall_mem_cons.mpr ⟨by decide, hrewrite.wellFormed⟩
      -- a `**` behind which the flag is set was not stopped at itself
      have hbefore : passState false P = some false := by
        have hpassed := h.passed
        rw [passState_append] at hpassed
        obtain ⟨before, hbefore, hlast⟩ := bind_eq_some_iff.mp hpassed
        cases before with
        | false => exact hbefore
        | true => cases hlast
      rw [hpass, hwell, passState_append, hbefore, bind_some, Bool.true_or,
        passState_rewritten hred hrewrite, behindWild_cons hwild]
      simp only [RestFine, hrewritable.mp hrewrite, not_true, true_and, false_and, or_false,
        true_implies]
      rw [and_iff_left hX']
    · rw [hall.2 (hnone hrewrite)]
      simp [RestFine, ← hrewritable, hrewrite]
  · rw [← chunksMatch_collapsed, hsplit]
    exact chunksMatch_append_congr P (rewriteChunks_chunksMatch hout) key
  · obtain ⟨hP, hrest⟩ := hwell.mp hs
    exact forall_mem_append.mpr ⟨hP,
      wellFormedChunk_of_rewriteChunks (forall_mem_cons.mp hrest).2 hout⟩

theorem wellFormed_iff_of_passed (h : (passState false (collapsed s)).isSome) :
    WellFormed s ↔ ¬ HasForbiddenByte s := by
  have hloose := (passState_isSome_iff.mp h).1
  rw [wellFormed_iff_collapsed]
  constructor
  · rintro hwell ⟨c, hc, hbyte⟩
    have hin : collapseChunk c ∈ collapsed s := mem_map_of_mem hc
    have hmem := hwell _ hin
    rcases hbyte with rfl | rfl | rfl <;> exact absurd hmem (by decide)
  · intro hnone c hc
    refine (canonicalChunk_iff_loose.mpr ⟨hloose c hc, fun hbyte ↦ hnone ?_⟩).wellFormedChunk
    obtain ⟨d, hd, rfl⟩ := List.mem_map.mp hc
    simp only [collapseChunk_eq_single_iff] at hbyte
    exact ⟨d, hd, hbyte⟩

/-- The scanner gets past all chunks. -/
theorem canonizes_iff_passed (hread : ¬ Overread s behind)
    (h : (passState false (collapsed s)).isSome) : Canonizes s behind ↔ ¬ HasForbiddenByte s := by
  have htext := singleText_eq_joinChunks s behind
  have hle := length_singleText_le_of_not_overread hread
  rw [readText_of_not_overread hread] at htext
  rw [htext] at hle
  obtain ⟨big, hbig⟩ := isSome_iff_exists.mp h
  obtain ⟨m', hcall, hreads, hlen, -⟩ := keyexprCanonize_passed (length_le_append s behind)
    (by rw [chunks_singleText, readText_of_not_overread hread]; exact hbig)
  rw [htext] at hcall hreads
  rw [canonizes_iff_of_success hcall hreads hlen hle (by simp [collapsed, chunks_ne_nil])
    (fun _ ↦ delimiter_notMem_of_mem_collapsed) (chunksMatch_collapsed s)
    wellFormed_iff_collapsed.mp, and_iff_left h, wellFormed_iff_of_passed h]
  intro hcanon
  rw [keyexprIsCanon_eq_success_iff, ← hcanon.collapsed]
  exact h

/-- The scanner stops at a malformed chunk. -/
theorem canonizes_of_malformed (hread : ¬ Overread s behind)
    (h : StopsAt (collapsed s) P big c X status) (hstatus : status.malformed = true) :
    Canonizes s behind := by
  obtain ⟨m', hcall⟩ := keyexprCanonize_malformed (length_le_append s behind)
    (by rw [chunks_singleText, readText_of_not_overread hread]; exact h) hstatus
  rw [canonizes_iff_of_error hcall (by rintro rfl; cases hstatus)]
  intro hwell
  have hmem : c ∈ collapsed s := by
    rw [h.split]
    simp
  rcases chunkPass_done_cases h.stop with ⟨-, hbad⟩ | ⟨rfl, -⟩ | ⟨-, ⟨-, rfl⟩ | ⟨-, rfl⟩⟩
  · exact hbad ⟨wellFormed_iff_collapsed.mp hwell c hmem, reduced_of_mem_collapsed hmem⟩
  · cases hstatus
  · cases hstatus
  · cases hstatus

/-- What the scanner stops at in the chunks of a string, without the repetitions of `$*`: a malformed
one, or a `$*`, or right behind a `**`, where the chunks `P` before and the rest `X` are as given -/
def Stops (s : Bytes) (lone : List Bytes → Bool → List Bytes → Prop)
    (wild : List Bytes → List Bytes → Prop) : Prop :=
  ∃ P big c X status, StopsAt (collapsed s) P big c X status ∧
    (status.malformed = true ∨ status = .loneDollarStar ∧ lone P big X ∨
      (status = .singleStarAfterDoubleStar ∨ status = .doubleStarAfterDoubleStar) ∧
        ∃ P', P = P' ++ [doubleStar] ∧ wild P' X)

/-- Read off the chunks of the string, without the repetitions of `$*`, at the place where the
scanner stops: it gets past all of them and none is `#`, `?` or `$`; or it stops at a malformed one,
at a `$*` that is not behind a `**` and chunks of one byte, or right behind a `**`, and the rest is
fine. A string that ends with a `$`, in front of a `*` in memory, is malformed; what is read for it
has to be refused, at a malformed chunk or because the rest is not rewritten. -/
def CanonizesWhen (s behind : Bytes) : Prop :=
  if Overread s behind then
    Stops (s ++ [star]) (fun _ _ X ↦ ¬ Rewritable X) fun _ X ↦ ¬ Rewritable X
  else
    (passState false (collapsed s)).isSome ∧ ¬ HasForbiddenByte s ∨ Stops s
        (fun P big X ↦ RestFine s P X (doubleStar ∈ leadWild X) ∧ (Rewritable X → big = false))
        fun P X ↦ RestFine s P X True

/-- How a call ends that rewrites: with an error exactly if the rest is not rewritten. -/
theorem refused_iff_of_ends {o : Option (List Bytes)} (hmalformed : ¬ WellFormed s)
    (hends : CanonizeEnds (s ++ behind) s.length P o) : Canonizes s behind ↔ o = none := by
  cases o with
  | none =>
    obtain ⟨status, m', hcall, hstatus⟩ := hends
    exact iff_of_true ((canonizes_iff_of_error hcall hstatus).mpr hmalformed) rfl
  | some out =>
    obtain ⟨m', hcall, -⟩ := hends
    exact iff_of_false (fun h ↦ hmalformed (h.success_iff.mp ⟨_, _, hcall⟩)) (some_ne_none _)

/-- The `$` at the end is read with the `*` behind it. -/
theorem canonizes_iff_of_overread (hread : Overread s behind) : Canonizes s behind ↔
      Stops (s ++ [star]) (fun _ _ X ↦ ¬ Rewritable X) fun _ X ↦ ¬ Rewritable X := by
  have hmalformed : ¬ WellFormed s := fun h ↦ h.not_overread behind hread
  have hchunks : chunks (singleText (s ++ behind) s.length) = collapsed (s ++ [star]) := by
    rw [chunks_singleText, readText, if_pos hread]
  have hle := length_le_append s behind
  have hrest : ∀ {P X : List Bytes} {big : Bool} {c : Bytes} {status : CanonStatus},
      StopsAt (collapsed (s ++ [star])) P big c X status → ∀ d ∈ c :: X, Reduced (tokenize d) := by
    intro P X big c status h d hd
    exact reduced_of_mem_collapsed (s := s ++ [star])
      (by rw [h.split]; exact mem_append_right _ hd)
  have hlone : ∀ {P X : List Bytes} {big : Bool},
      StopsAt (collapsed (s ++ [star])) P big dollarStar X .loneDollarStar →
        (Canonizes s behind ↔ ¬ Rewritable X) := by
    intro P X big h
    obtain ⟨hsome, hnone⟩ := rewriteChunks_eq
      (fun d hd ↦ hrest h d (mem_cons_of_mem _ hd)) false
    rw [refused_iff_of_ends hmalformed (keyexprCanonize_lone hle (by rw [hchunks]; exact h)),
      map_eq_none_iff]
    refine ⟨fun heq hrewrite ↦ ?_, hnone⟩
    exact some_ne_none _ ((hsome hrewrite).symm.trans heq)
  have hwild : ∀ {P X : List Bytes} {big : Bool} {c : Bytes} {status : CanonStatus},
      StopsAt (collapsed (s ++ [star])) (P ++ [doubleStar]) big c X status →
        (c = starChunk ∧ status = .singleStarAfterDoubleStar ∨
          c = doubleStar ∧ status = .doubleStarAfterDoubleStar) →
          (Canonizes s behind ↔ ¬ Rewritable X) := by
    intro P X big c status h hstatus
    obtain ⟨hsome, hnone⟩ := rewriteChunks_eq (hrest h) true
    have hsame : Rewritable (c :: X) ↔ Rewritable X := by
      rw [Rewritable, Rewritable, behindWild_cons
        (wildChunk_of_stop (hstatus.imp And.left And.left))]
    rw [hsame] at hsome hnone
    rw [refused_iff_of_ends hmalformed (keyexprCanonize_wild hle (by rw [hchunks]; exact h)
      (hstatus.imp And.right And.right))]
    refine ⟨fun heq hrewrite ↦ ?_, hnone⟩
    exact some_ne_none _ ((hsome hrewrite).symm.trans heq)
  constructor
  · intro h
    rcases passed_or_stopsAt (collapsed (s ++ [star])) with ⟨big, hbig⟩ | ⟨P, big, c, X, status, hstop⟩
    · obtain ⟨m', hcall, -⟩ := keyexprCanonize_passed hle (by rw [hchunks]; exact hbig)
      exact absurd (h.success_iff.mp ⟨_, _, hcall⟩) hmalformed
    · refine ⟨P, big, c, X, status, hstop, ?_⟩
      rcases chunkPass_done_cases hstop.stop with ⟨hbad, -⟩ | ⟨rfl, rfl⟩ | ⟨rfl, hstatus⟩
      · exact .inl hbad
      · exact .inr (.inl ⟨rfl, (hlone hstop).mp h⟩)
      · obtain ⟨P', d, rfl, rfl | ⟨hne, hone⟩⟩ := exists_last_of_passState hstop.passed
        · exact .inr (.inr ⟨hstatus.imp And.right And.right, P', rfl, (hwild hstop hstatus).mp h⟩)
        · exact absurd (keyexprCanonize_aborted hle (by rw [hchunks]; exact hstop) hne hone
            (hstatus.imp And.right And.right)) h.returns
  · rintro ⟨P, big, c, X, status, hstop, hbad | ⟨rfl, hfine⟩ | ⟨hstatus, P', rfl, hfine⟩⟩
    · obtain ⟨m', hcall⟩ := keyexprCanonize_malformed hle (by rw [hchunks]; exact hstop) hbad
      exact (canonizes_iff_of_error hcall (by rintro rfl; cases hbad)).mpr hmalformed
    · rcases chunkPass_done_cases hstop.stop with ⟨hbad, -⟩ | ⟨-, rfl⟩ | ⟨-, ⟨-, h⟩ | ⟨-, h⟩⟩
      · cases hbad
      · exact (hlone hstop).mpr hfine
      · cases h
      · cases h
    · rcases chunkPass_done_cases hstop.stop with ⟨hbad, -⟩ | ⟨rfl, -⟩ | ⟨-, hcases⟩
      · rcases hstatus with rfl | rfl <;> cases hbad
      · rcases hstatus with h | h <;> cases h
      · exact (hwild hstop hcases).mpr hfine

/-- The string does not end with a `$` in front of a `*`. -/
theorem canonizes_iff_of_not_overread (hread : ¬ Overread s behind) :
    Canonizes s behind ↔ (passState false (collapsed s)).isSome ∧ ¬ HasForbiddenByte s ∨ Stops s
        (fun P big X ↦ RestFine s P X (doubleStar ∈ leadWild X) ∧ (Rewritable X → big = false))
        fun P X ↦ RestFine s P X True := by
  constructor
  · intro h
    rcases passed_or_stopsAt (collapsed s) with ⟨big, hbig⟩ | ⟨P, big, c, X, status, hstop⟩
    · have hpass : (passState false (collapsed s)).isSome := by rw [hbig]; rfl
      exact .inl ⟨hpass, (canonizes_iff_passed hread hpass).mp h⟩
    · refine .inr ⟨P, big, c, X, status, hstop, ?_⟩
      rcases chunkPass_done_cases hstop.stop with ⟨hbad, -⟩ | ⟨rfl, rfl⟩ | ⟨rfl, hwild⟩
      · exact .inl hbad
      · exact .inr (.inl ⟨rfl, (canonizes_iff_lone hread hstop).mp h⟩)
      · obtain ⟨P', d, rfl, rfl | ⟨hne, hone⟩⟩ := exists_last_of_passState hstop.passed
        · exact .inr (.inr ⟨hwild.imp And.right And.right, P', rfl,
            (canonizes_iff_wild hread hstop hwild).mp h⟩)
        · exact absurd (keyexprCanonize_aborted (length_le_append s behind)
            (by rw [chunks_singleText, readText_of_not_overread hread]; exact hstop) hne hone
            (hwild.imp And.right And.right)) h.returns
  · rintro (⟨hpass, hnone⟩ | ⟨P, big, c, X, status, hstop, hbad | ⟨rfl, hfine⟩ |
      ⟨hstatus, P', rfl, hfine⟩⟩)
    · exact (canonizes_iff_passed hread hpass).mpr hnone
    · exact canonizes_of_malformed hread hstop hbad
    · rcases chunkPass_done_cases hstop.stop with ⟨hbad, -⟩ | ⟨-, rfl⟩ | ⟨-, ⟨-, h⟩ | ⟨-, h⟩⟩
      · cases hbad
      · exact (canonizes_iff_lone hread hstop).mpr hfine
      · cases h
      · cases h
    · rcases chunkPass_done_cases hstop.stop with ⟨hbad, -⟩ | ⟨rfl, -⟩ | ⟨-, hwild⟩
      · rcases hstatus with rfl | rfl <;> cases hbad
      · rcases hstatus with h | h <;> cases h
      · exact (canonizes_iff_wild hread hstop hwild).mpr hfine

end Rewriting

/-- `_z_keyexpr_canonize` does what it is for exactly with these strings and what is in memory behind
them. -/
theorem canonizes_iff (s behind : Bytes) : Canonizes s behind ↔ CanonizesWhen s behind := by
  rw [CanonizesWhen]
  split_ifs with hread
  · exact canonizes_iff_of_overread hread
  · exact canonizes_iff_of_not_overread hread

/-- An assertion fails on `**/a/*`, `#` is accepted, `$*/a/*` is refused, `**/$*` is made into
`**/*`, and `$*$` is accepted where a `*` is behind it. -/
theorem canonizes_wrong :
    ¬ Canonizes (joinChunks [doubleStar, [97], starChunk]) [0] ∧ ¬ Canonizes [sharp] [0] ∧
      ¬ Canonizes (joinChunks [dollarStar, [97], starChunk]) [0] ∧
      ¬ Canonizes (joinChunks [doubleStar, dollarStar]) [0] ∧
      ¬ Canonizes [dsl0, star, dsl0] [star] := by
  refine ⟨fun h ↦ h.returns (by decide +kernel), fun h ↦ ?_, fun h ↦ ?_, fun h ↦ ?_, fun h ↦ ?_⟩
  · have hsuccess : keyexprCanonize [sharp, 0] 1 = .returned .success [sharp, 0] 1 := by
      decide +kernel
    have hwell := h.success_iff.mp ⟨_, _, hsuccess⟩
    exact absurd (hwell [sharp] (by decide)) (by decide)
  · obtain ⟨m, len, hsuccess⟩ := h.success_iff.mpr (by unfold WellFormed; decide)
    have herror : keyexprCanonize (joinChunks [dollarStar, [97], starChunk] ++ [0]) 6 =
        .returned .starsInChunk (joinChunks [starChunk, [star, 97], starChunk] ++ [0]) 6 := by
      decide +kernel
    cases herror.symm.trans hsuccess
  · have hsuccess : keyexprCanonize (joinChunks [doubleStar, dollarStar] ++ [0]) 5 =
        .returned .success (joinChunks [doubleStar, [star, star]] ++ [0]) 4 := by decide +kernel
    exact absurd (h.output _ _ hsuccess).1 (by decide +kernel)
  · have hsuccess : keyexprCanonize [dsl0, star, dsl0, star] 3 =
        .returned .success [star, star, dsl0, star] 1 := by decide +kernel
    have hwell := h.success_iff.mp ⟨_, _, hsuccess⟩
    exact absurd (hwell [dsl0, star, dsl0] (by decide)) (by decide)

end ZenohPico.Keyexpr
