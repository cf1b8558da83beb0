import ZenohPico.Keyexpr.KeyReading

/-!
What the chunk matchers say about the concrete chunks two pattern chunks stand for: as `intersects`
they decide whether there is one in common, as `includes` a yes means that every chunk of the right
pattern is one of the left pattern. The scans are read as the stripping of a pair of byte patterns;
the search behind a `$*` runs over raw bytes, and finds nothing that is not found over patterns.
-/

namespace ZenohPico.Keyexpr

open Foundations List Option

/-! ### Searching bytes and searching patterns -/

variable {q p : List (Option UInt8)} {a : UInt8}
  {orient : List (Option UInt8) → List (Option UInt8)} {c x d : Bytes}

/-- A literal byte in a text stands for a letter of its pattern. -/
theorem untokenize_split {pre t : Bytes} (ha : Literal a) (h : untokenize q = pre ++ a :: t) :
    ∃ q₁ q₂, q = q₁ ++ some a :: q₂ ∧ untokenize q₂ = t := by
  induction q generalizing pre with
  | nil => simp [untokenize] at h
  | cons b q ih =>
    cases b with
    | none =>
      rw [untokenize] at h
      rcases pre with _ | ⟨_, _ | ⟨_, pre⟩⟩
      · obtain ⟨rfl, -⟩ := List.cons.inj h
        exact absurd rfl ha.2.2.1
      · obtain ⟨-, h⟩ := List.cons.inj h
        obtain ⟨rfl, -⟩ := List.cons.inj h
        exact absurd rfl ha.2.2.2
      · obtain ⟨-, h⟩ := List.cons.inj h
        obtain ⟨-, h⟩ := List.cons.inj h
        obtain ⟨q₁, q₂, rfl, hq₂⟩ := ih h
        exact ⟨none :: q₁, q₂, rfl, hq₂⟩
    | some b =>
      rw [untokenize] at h
      cases pre with
      | nil =>
        obtain ⟨rfl, hrest⟩ := List.cons.inj h
        exact ⟨[], q, rfl, hrest⟩
      | cons _ pre =>
        obtain ⟨-, h⟩ := List.cons.inj h
        obtain ⟨q₁, q₂, rfl, hq₂⟩ := ih h
        exact ⟨some b :: q₁, q₂, rfl, hq₂⟩

theorem untokenize_literals {mid rest : Bytes} (hmid : ∀ a ∈ mid, Literal a)
    (h : untokenize q = mid ++ rest) : ∃ q', q = mid.map some ++ q' ∧ untokenize q' = rest := by
  induction mid generalizing q with
  | nil => exact ⟨q, rfl, h⟩
  | cons a mid ih =>
    have ha := hmid a (by simp)
    match q with
    | [] => simp [untokenize] at h
    | none :: q =>
      obtain ⟨rfl, -⟩ := List.cons.inj h
      exact absurd rfl ha.2.2.1
    | some b :: q =>
      obtain ⟨rfl, htail⟩ := List.cons.inj h
      obtain ⟨q', rfl, hq'⟩ := ih (fun a ha ↦ hmid a (mem_cons_of_mem _ ha)) htail
      exact ⟨q', rfl, hq'⟩

theorem forall₂_beq_iff {seg mid : Bytes} :
    List.Forall₂ (fun a b : UInt8 ↦ (a == b) = true) seg mid ↔ seg = mid := by
  simp only [beq_iff_eq]
  exact forall₂_eq_eq_eq ▸ Iff.rfl

theorem forall₂_onLetter_iff {seg : Bytes} {mid : List (Option UInt8)} :
    List.Forall₂ (OnLetter fun a b ↦ a = b) seg mid ↔ mid = seg.map some := by
  induction seg generalizing mid with
  | nil => simp
  | cons a seg ih =>
    rw [forall₂_cons_left_iff, map_cons]
    constructor
    · rintro ⟨b, mid, ⟨_, rfl, rfl⟩, hmid, rfl⟩
      rw [ih.mp hmid]
    · rintro rfl
      exact ⟨some a, seg.map some, ⟨a, rfl, rfl⟩, ih.mpr rfl, rfl⟩

/-- Searching the bytes of a chunk for runs of literal bytes is searching its pattern. -/
theorem finds_untokenize_iff {segs : List Bytes} (hsegs : ∀ seg ∈ segs, ∀ a ∈ seg, Literal a) :
    Finds (fun a b : UInt8 ↦ (a == b) = true) segs (untokenize q) ↔
      Finds (OnLetter fun a b : UInt8 ↦ a = b) segs q := by
  induction segs generalizing q with
  | nil => simp [Finds]
  | cons seg segs ih =>
    have hrestSegs : ∀ seg ∈ segs, ∀ a ∈ seg, Literal a :=
      fun s hs ↦ hsegs s (mem_cons_of_mem _ hs)
    constructor
    · rintro ⟨pre, mid, rest, heq, hmid, hrest⟩
      rw [forall₂_beq_iff] at hmid
      subst hmid
      cases seg with
      | nil =>
        -- an empty run is found at once, and nothing of the text is lost
        have hall := (hrest.append_left pre)
        rw [nil_append] at heq
        rw [← heq, ih hrestSegs] at hall
        exact ⟨[], [], q, rfl, .nil, hall⟩
      | cons a seg =>
        have hseg := hsegs (a :: seg) (by simp)
        obtain ⟨q₁, q₂, rfl, hq₂⟩ := untokenize_split (hseg a (by simp)) heq
        obtain ⟨q', rfl, hq'⟩ := untokenize_literals
          (fun b hb ↦ hseg b (mem_cons_of_mem _ hb)) hq₂
        refine ⟨q₁, (a :: seg).map some, q', by simp, forall₂_onLetter_iff.mpr rfl, ?_⟩
        rw [← hq'] at hrest
        exact (ih hrestSegs).mp hrest
    · rintro ⟨pre, mid, rest, rfl, hmid, hrest⟩
      rw [forall₂_onLetter_iff] at hmid
      subst hmid
      refine ⟨untokenize pre, seg, untokenize rest, ?_, forall₂_beq_iff.mpr rfl,
        (ih hrestSegs).mpr hrest⟩
      rw [untokenize_append, untokenize_append, untokenize_map_some]

theorem literal_of_mem_segments (hp : AllLetters Literal p) :
    ∀ seg ∈ segments p, ∀ a ∈ seg, Literal a := by
  induction hlen : p.length using Nat.strong_induction_on generalizing p with
  | _ n ih =>
    rcases segments_cases p with ⟨seg, rfl, hseg⟩ | ⟨seg, p', rfl, hseg⟩
    · rw [hseg]
      simp only [mem_singleton, forall_eq]
      exact fun a ha ↦ hp a (by simpa using ha)
    · rw [hseg]
      simp only [mem_cons, forall_eq_or_imp]
      refine ⟨fun a ha ↦ hp a (by simp [ha]), ih p'.length ?_ (fun a ha ↦ hp a (by simp [ha])) rfl⟩
      rw [← hlen]
      simp only [length_append, length_cons]
      omega

/-! ### Byte patterns -/

/-- A byte of a concrete chunk. -/
def ChunkByte (b : UInt8) : Prop := b ≠ delimiter ∧ b ≠ star ∧ b ≠ dsl0

/-- A byte a canonical chunk may hold outside `$*`, in a text that was cut at its `/`. -/
def ChunkLiteral (b : UInt8) : Prop := Literal b ∧ b ≠ delimiter

theorem ChunkLiteral.chunkByte {b : UInt8} (h : ChunkLiteral b) : ChunkByte b :=
  ⟨h.2, h.1.2.2.2, h.1.2.2.1⟩

theorem plainLetters_of_literal (hp : AllLetters ChunkLiteral p) :
    PlainLetters (fun a b : UInt8 ↦ a = b) ChunkByte p := by
  rintro a ha _ rfl
  exact (hp a ha).chunkByte

theorem liveLetters_eq (p : List (Option UInt8)) : LiveLetters (fun a b : UInt8 ↦ a = b) p :=
  fun a _ ↦ ⟨a, rfl⟩

theorem allLetters_literal (hp : AllLetters ChunkLiteral p) : AllLetters Literal p :=
  fun a ha ↦ (hp a ha).1

theorem lettersMeet_eq_iff {b : UInt8} :
    (a == b) = true ↔ LettersMeet (fun a b : UInt8 ↦ a = b) a b := by
  rw [beq_iff_eq]
  constructor
  · rintro rfl
    exact ⟨a, rfl, rfl⟩
  · rintro ⟨x, rfl, rfl⟩
    rfl

theorem onLetter_meet_iff {entry : Option UInt8} :
    OnLetter (LettersMeet fun a b : UInt8 ↦ a = b) a entry ↔
      OnLetter (fun a b : UInt8 ↦ a = b) a entry := by
  constructor
  · rintro ⟨b, rfl, x, rfl, rfl⟩
    exact ⟨_, rfl, rfl⟩
  · rintro ⟨b, rfl, rfl⟩
    exact ⟨a, rfl, a, rfl, rfl⟩

theorem any_isNone_iff {α : Type*} {q : List (Option α)} :
    q.any Option.isNone = true ↔ none ∈ q := by
  rw [List.any_eq_true]
  constructor
  · rintro ⟨a, ha, hnone⟩
    rw [isNone_iff_eq_none] at hnone
    rwa [hnone] at ha
  · intro h
    exact ⟨none, h, rfl⟩

/-- The middle between two stars, for `intersects`. -/
theorem tokenSpecial_iff (hp : AllLetters ChunkLiteral p) (hq : AllLetters ChunkLiteral q) :
    tokenSpecial true p q = true ↔
      Overlap (fun a b : UInt8 ↦ a = b) ChunkByte (none :: (p ++ [none])) q := by
  rw [tokenSpecial, Bool.true_and, Bool.or_eq_true, any_isNone_iff]
  by_cases hnone : none ∈ q
  · refine iff_of_true (Or.inl hnone) ?_
    obtain ⟨q₁, q₂, rfl⟩ := append_of_mem hnone
    exact overlap_star_both_ends (plainLetters_of_literal hp) (liveLetters_eq p)
      (plainLetters_of_literal hq) (liveLetters_eq _)
  · rw [or_iff_right hnone, searchSegments_iff,
      finds_untokenize_iff (literal_of_mem_segments (allLetters_literal hp)), ← starred_segments,
      overlap_starred_iff hnone (plainLetters_of_literal hq) (liveLetters_eq q)]
    constructor
    · exact Finds.imp_mem fun _ _ _ _ _ _ ↦ onLetter_meet_iff.mpr
    · exact Finds.imp_mem fun _ _ _ _ _ _ ↦ onLetter_meet_iff.mp

/-- The middle between two stars, for `includes`. -/
theorem tokenSpecial_covers (hp : AllLetters ChunkLiteral p) (hq : AllLetters ChunkLiteral q)
    (h : tokenSpecial false p q = true) :
    Covers (fun a b : UInt8 ↦ a = b) ChunkByte (none :: (p ++ [none])) q := by
  rw [tokenSpecial, Bool.false_and, Bool.false_or, searchSegments_iff,
    finds_untokenize_iff (literal_of_mem_segments (allLetters_literal hp))] at h
  rw [← starred_segments]
  refine covers_starred (plainLetters_of_literal hq) (h.imp_mem ?_)
  rintro _ _ a _ entry _ ⟨b, rfl, rfl⟩
  exact ⟨a, rfl, fun x hx ↦ hx⟩

theorem endsInStar_iff {α : Type*} {q : List (Option α)} : endsInStar q = true ↔ EndsInStar q := by
  rcases eq_or_ne q [] with rfl | hne
  · simp [endsInStar, EndsInStar]
  · obtain ⟨q', b, rfl⟩ : ∃ q' b, q = q' ++ [b] := ⟨_, _, (dropLast_append_getLast hne).symm⟩
    rw [endsInStar_concat, isNone_iff_eq_none]
    constructor
    · rintro rfl
      exact ⟨q', rfl⟩
    · rintro ⟨q'', h⟩
      exact (append_inj_right' h rfl |> List.cons.inj).1

/-- What is done between stars decides the overlap, in either direction of the scan. -/
theorem tokenOnStar_iff
    (horient : ∀ p q, Overlap (fun a b : UInt8 ↦ a = b) ChunkByte (none :: (orient p ++ [none]))
      (orient q) ↔ Overlap (fun a b : UInt8 ↦ a = b) ChunkByte (none :: (p ++ [none])) q)
    (hmem : ∀ p, orient p ⊆ p) (hp : AllLetters ChunkLiteral p) (hq : AllLetters ChunkLiteral q)
    (hend : EndsInStar p ∨ EndsInStar q) : tokenOnStar true orient p q = true ↔
      Overlap (fun a b : UInt8 ↦ a = b) ChunkByte (none :: p) q := by
  rw [tokenOnStar, Bool.true_and, Bool.or_eq_true, endsInStar_iff]
  by_cases hendq : EndsInStar q
  · refine iff_of_true (Or.inl hendq) ?_
    obtain ⟨q', rfl⟩ := hendq
    exact overlap_star_front_back (plainLetters_of_literal hp) (liveLetters_eq p)
      (plainLetters_of_literal (hq.of_subset (subset_append_left _ _))) (liveLetters_eq q')
  · obtain ⟨p', rfl⟩ := hend.resolve_right hendq
    have hp' : AllLetters ChunkLiteral p' := hp.of_subset (subset_append_left _ _)
    rw [or_iff_right hendq, dropLast_concat, tokenSpecial_iff (hp'.of_subset (hmem p'))
      (hq.of_subset (hmem q)), horient]

theorem overlap_reverse_star (p q : List (Option UInt8)) :
    Overlap (fun a b : UInt8 ↦ a = b) ChunkByte (none :: (p.reverse ++ [none])) q.reverse ↔
      Overlap (fun a b : UInt8 ↦ a = b) ChunkByte (none :: (p ++ [none])) q := by
  have hrev : none :: (p.reverse ++ [none]) = (none :: (p ++ [none])).reverse := by simp
  rw [hrev, overlap_reverse_iff]

theorem covers_reverse_star (p q : List (Option UInt8)) :
    Covers (fun a b : UInt8 ↦ a = b) ChunkByte (none :: (p.reverse ++ [none])) q.reverse ↔
      Covers (fun a b : UInt8 ↦ a = b) ChunkByte (none :: (p ++ [none])) q := by
  have hrev : none :: (p.reverse ++ [none]) = (none :: (p ++ [none])).reverse := by simp
  rw [hrev, covers_reverse_iff]

/-- The scan of two byte patterns answers whether they overlap, in either direction. -/
theorem decidesOverlap_tokens
    (horient : ∀ p q, Overlap (fun a b : UInt8 ↦ a = b) ChunkByte (none :: (orient p ++ [none]))
      (orient q) ↔ Overlap (fun a b : UInt8 ↦ a = b) ChunkByte (none :: (p ++ [none])) q)
    (hmem : ∀ p, orient p ⊆ p) :
    DecidesOverlap (fun a b : UInt8 ↦ a = b) ChunkByte ChunkLiteral (· == ·) (fun _ ↦ true)
      (fun p q ↦ some (tokenOnStar true orient p q)) where
  back_iff _ _ _ _ := lettersMeet_eq_iff
  clean_iff q hq _ :=
    iff_of_true rfl (overlap_star_of_plain (plainLetters_of_literal hq) (liveLetters_eq q))
  onStar_iff p q answer hp hq _ _ _ _ hend h := by
    rw [some.injEq] at h
    rw [← h]
    exact tokenOnStar_iff horient hmem hp hq hend

theorem stripFront_tokens_isSome (both : Bool)
    (orient : List (Option UInt8) → List (Option UInt8)) (p q : List (Option UInt8)) :
    ∃ answer, stripFront both (· == ·) (· == ·) (fun _ ↦ true)
      (fun p q ↦ some (tokenOnStar both orient p q)) p q = some answer := by
  have hback : ∀ p q, ∃ answer, stripBack both (· == ·) (fun _ ↦ true)
      (fun p q ↦ some (tokenOnStar both orient p q)) p q = some answer := by
    intro p q
    induction p generalizing q with
    | nil => exact ⟨_, rfl⟩
    | cons a p ih =>
      match a, q with
      | a, [] => exact ⟨_, rfl⟩
      | none, b :: q => exact ⟨_, rfl⟩
      | some a, none :: q =>
        rw [stripBack]
        split_ifs <;> exact ⟨_, rfl⟩
      | some a, some b :: q =>
        rw [stripBack]
        split_ifs
        · exact ih q
        · exact ⟨_, rfl⟩
  induction p generalizing q with
  | nil => exact ⟨_, rfl⟩
  | cons a p ih =>
    match a, q with
    | a, [] => exact ⟨_, rfl⟩
    | none, b :: q => exact hback _ _
    | some a, none :: q =>
      rw [stripFront]
      split_ifs
      · exact hback _ _
      · exact ⟨_, rfl⟩
    | some a, some b :: q =>
      rw [stripFront]
      split_ifs
      · exact ih q
      · exact ⟨_, rfl⟩

theorem beq_some_true_iff {o : Option Bool} : (o == some true) = true ↔ o = some true := by
  rw [beq_iff_eq]

theorem tokenForward_iff (hp : AllLetters ChunkLiteral p) (hq : AllLetters ChunkLiteral q)
    (hrp : Reduced p) (hrq : Reduced q) :
    tokenForward true p q = true ↔ Overlap (fun a b : UInt8 ↦ a = b) ChunkByte p q := by
  obtain ⟨answer, hanswer⟩ := stripFront_tokens_isSome true id p q
  rw [tokenForward, hanswer, ← stripFront_overlap
    (decidesOverlap_tokens (fun _ _ ↦ Iff.rfl) fun _ ↦ List.Subset.refl _)
    (fun _ _ _ _ ↦ lettersMeet_eq_iff) hp hq hrp hrq hanswer]
  simp

theorem allLetters_reverse {G : UInt8 → Prop} (hp : AllLetters G p) : AllLetters G p.reverse :=
  hp.of_subset fun _ h ↦ mem_reverse.mp h

theorem reduced_reverse (hp : Reduced p) : Reduced p.reverse := by
  rw [Reduced, isChain_reverse]
  exact hp.imp fun _ _ h ↦ h.symm

theorem tokenBackward_iff (hp : AllLetters ChunkLiteral p) (hq : AllLetters ChunkLiteral q)
    (hrp : Reduced p) (hrq : Reduced q) :
    tokenBackward true true p q = true ↔ Overlap (fun a b : UInt8 ↦ a = b) ChunkByte p q := by
  obtain ⟨answer, hanswer⟩ := stripFront_tokens_isSome true List.reverse p.reverse q.reverse
  have hscan : tokenBackward true true p q = (some answer == some true) := by
    rw [tokenBackward, ← hanswer]
    rfl
  rw [hscan, ← overlap_reverse_iff, ← stripFront_overlap
    (decidesOverlap_tokens overlap_reverse_star fun p _ h ↦ mem_reverse.mp h)
    (fun _ _ _ _ ↦ lettersMeet_eq_iff) (allLetters_reverse hp) (allLetters_reverse hq)
    (reduced_reverse hrp) (reduced_reverse hrq) hanswer]
  simp

/-- A yes of the scan of two byte patterns as `includes` means that the first covers the second. -/
theorem showsCovers_tokens
    (horient : ∀ p q, Covers (fun a b : UInt8 ↦ a = b) ChunkByte (none :: (orient p ++ [none]))
      (orient q) ↔ Covers (fun a b : UInt8 ↦ a = b) ChunkByte (none :: (p ++ [none])) q)
    (hmem : ∀ p, orient p ⊆ p) :
    ShowsCovers (fun a b : UInt8 ↦ a = b) ChunkByte ChunkLiteral (· == ·) (fun _ ↦ true)
      (fun p q ↦ some (tokenOnStar false orient p q)) where
  back_covers a b _ _ h := by
    rw [beq_iff_eq] at h
    rw [h]
    exact fun _ hx ↦ hx
  clean_covers q hq _ := covers_star_of_plain (plainLetters_of_literal hq)
  onStar_covers p q hp hq _ _ hend h := by
    obtain ⟨p', rfl⟩ := hend
    rw [some.injEq, tokenOnStar, Bool.false_and, Bool.false_or, dropLast_concat] at h
    have hp' : AllLetters ChunkLiteral p' := hp.of_subset (subset_append_left _ _)
    rw [← horient]
    exact tokenSpecial_covers (hp'.of_subset (hmem p')) (hq.of_subset (hmem q)) h

theorem tokenForward_covers (hp : AllLetters ChunkLiteral p) (hq : AllLetters ChunkLiteral q)
    (hrp : Reduced p) (hrq : Reduced q) (h : tokenForward false p q = true) :
    Covers (fun a b : UInt8 ↦ a = b) ChunkByte p q := by
  rw [tokenForward, beq_some_true_iff] at h
  refine stripFront_covers (showsCovers_tokens (fun _ _ ↦ Iff.rfl) fun _ ↦ List.Subset.refl _) ?_
    hp hq hrp hrq h
  intro a b _ _ hab
  rw [beq_iff_eq] at hab
  rw [hab]
  exact fun _ hx ↦ hx

theorem tokenBackward_covers (hp : AllLetters ChunkLiteral p) (hq : AllLetters ChunkLiteral q)
    (hrp : Reduced p) (hrq : Reduced q) (h : tokenBackward false true p q = true) :
    Covers (fun a b : UInt8 ↦ a = b) ChunkByte p q := by
  rw [tokenBackward, beq_some_true_iff] at h
  rw [← covers_reverse_iff]
  refine stripFront_covers (showsCovers_tokens covers_reverse_star fun p _ h ↦ mem_reverse.mp h)
    ?_ (allLetters_reverse hp) (allLetters_reverse hq) (reduced_reverse hrp) (reduced_reverse hrq) h
  intro a b _ _ hab
  rw [beq_iff_eq] at hab
  rw [hab]
  exact fun _ hx ↦ hx

/-! ### Concrete chunks -/

/-- The concrete chunks a pattern chunk other than `**` stands for. -/
def ConcreteMatch (c x : Bytes) : Prop := ConcreteChunk x ∧ ChunkMatches c x

/-- A letter of a key expression with `@` nowhere but at the start of chunks. -/
def AlignedLetter (c : Bytes) : Prop := KeyLetter c ∧ verbatim ∉ c.tail

/-- What an aligned letter other than `*` is as a byte pattern. -/
structure TokenChunk (c : Bytes) : Prop where
  literal : AllLetters ChunkLiteral (tokenize c)
  reduced : Reduced (tokenize c)
  ne_nil : tokenize c ≠ []
  ne_star : tokenize c ≠ [none]
  aligned : verbatim ∉ c.tail

theorem mem_untokenize (h : some a ∈ p) : a ∈ untokenize p := by
  induction p with
  | nil => simp at h
  | cons b p ih =>
    cases b with
    | none => exact mem_cons_of_mem _ (mem_cons_of_mem _ (ih (by simpa using h)))
    | some b =>
      rcases mem_cons.mp h with h | h
      · obtain rfl := some.inj h
        exact mem_cons_self
      · exact mem_cons_of_mem _ (ih h)

theorem mem_of_mem_tokenize (h : some a ∈ tokenize c) : a ∈ c := by
  rw [← untokenize_tokenize c]
  exact mem_untokenize h

theorem AlignedLetter.tokenChunk (h : AlignedLetter c) (hcs : c ≠ starChunk) : TokenChunk c := by
  obtain ⟨hne, hlit, hred, hstar⟩ := h.1.1.resolve_left hcs
  refine ⟨fun a ha ↦ ⟨hlit a ha, ?_⟩, hred, ?_, hstar, h.2⟩
  · rintro rfl
    exact h.1.2 (mem_of_mem_tokenize ha)
  · rw [ne_eq, ← untokenize_eq_nil_iff, untokenize_tokenize]
    exact hne

theorem not_startsVerbatim_starChunk : ¬ StartsVerbatim starChunk := by decide

/-- A chunk is verbatim exactly when the concrete chunks it stands for are. -/
theorem ConcreteMatch.startsVerbatim_iff (h : ConcreteMatch c x) :
    StartsVerbatim c ↔ StartsVerbatim x := by
  obtain ⟨-, hmatch⟩ := h
  rw [ChunkMatches] at hmatch
  split_ifs at hmatch with hcs
  · rw [hcs]
    exact iff_of_false not_startsVerbatim_starChunk hmatch
  · exact hmatch.1

theorem TokenChunk.ne_starChunk (hc : TokenChunk c) : c ≠ starChunk := by
  rintro rfl
  exact (hc.literal star (by simp [tokenize, starChunk])).1.2.2.2 rfl

theorem TokenChunk.concreteMatch_iff (hc : TokenChunk c) : ConcreteMatch c x ↔
      Matches (fun a b : UInt8 ↦ a = b) ChunkByte (tokenize c) x ∧
        (StartsVerbatim c ↔ StartsVerbatim x) := by
  constructor
  · intro h
    refine ⟨?_, h.startsVerbatim_iff⟩
    obtain ⟨⟨-, hdel, hstar, hdollar⟩, hmatch⟩ := h
    rw [ChunkMatches, if_neg hc.ne_starChunk] at hmatch
    refine hmatch.2.mono (fun _ _ _ h ↦ h) fun b hb _ ↦ ⟨?_, ?_, ?_⟩
    · rintro rfl
      exact hdel hb
    · rintro rfl
      exact hstar hb
    · rintro rfl
      exact hdollar hb
  · rintro ⟨hmatch, hverb⟩
    have hplain := hmatch.forall_plain (plainLetters_of_literal hc.literal)
    refine ⟨⟨?_, fun h ↦ (hplain _ h).1 rfl, fun h ↦ (hplain _ h).2.1 rfl,
      fun h ↦ (hplain _ h).2.2 rfl⟩, ?_⟩
    · rintro rfl
      have hoverlap : Overlap (fun a b : UInt8 ↦ a = b) ChunkByte (tokenize c) [] :=
        ⟨[], hmatch, .nil⟩
      rw [overlap_nil_iff hc.reduced] at hoverlap
      exact hoverlap.elim hc.ne_nil hc.ne_star
    · rw [ChunkMatches, if_neg hc.ne_starChunk]
      exact ⟨hverb, hmatch.mono (fun _ _ _ h ↦ h) fun _ _ _ ↦ trivial⟩

/-- A pattern that starts with a letter fixes the first byte of its words. -/
theorem startsVerbatim_iff_of_letter (htok : tokenize c = some a :: p)
    (h : Matches (fun a b : UInt8 ↦ a = b) ChunkByte (tokenize c) x) :
    StartsVerbatim c ↔ StartsVerbatim x := by
  have hc : c = a :: untokenize p := by rw [← untokenize_tokenize c, htok, untokenize]
  rw [htok] at h
  obtain ⟨b, v, rfl, rfl, -⟩ := matches_letter_iff.mp h
  rw [hc]
  exact Iff.rfl

theorem not_startsVerbatim_of_star (htok : tokenize c = none :: p) : ¬ StartsVerbatim c := by
  have hc : c = dsl0 :: star :: untokenize p := by rw [← untokenize_tokenize c, htok, untokenize]
  rw [hc]
  simp [StartsVerbatim, dsl0, verbatim]

/-- Two chunks that are both verbatim or both not have a concrete chunk in common exactly when
their byte patterns overlap. -/
theorem lettersMeet_iff_overlap (hc : TokenChunk c) (hd : TokenChunk d)
    (hagree : StartsVerbatim c ↔ StartsVerbatim d) : LettersMeet ConcreteMatch c d ↔
      Overlap (fun a b : UInt8 ↦ a = b) ChunkByte (tokenize c) (tokenize d) := by
  constructor
  · rintro ⟨x, hcx, hdx⟩
    exact ⟨x, (hc.concreteMatch_iff.mp hcx).1, (hd.concreteMatch_iff.mp hdx).1⟩
  · rintro ⟨x, hcx, hdx⟩
    rcases hctok : tokenize c with _ | ⟨a, p⟩
    · exact absurd hctok hc.ne_nil
    rcases hdtok : tokenize d with _ | ⟨b, q⟩
    · exact absurd hdtok hd.ne_nil
    match a, b with
    | some a, _ =>
      have hverb := startsVerbatim_iff_of_letter hctok hcx
      exact ⟨x, hc.concreteMatch_iff.mpr ⟨hcx, hverb⟩,
        hd.concreteMatch_iff.mpr ⟨hdx, hagree.symm.trans hverb⟩⟩
    | none, some b =>
      have hverb := startsVerbatim_iff_of_letter hdtok hdx
      exact ⟨x, hc.concreteMatch_iff.mpr ⟨hcx, hagree.trans hverb⟩,
        hd.concreteMatch_iff.mpr ⟨hdx, hverb⟩⟩
    | none, none =>
      -- both stars may take one more byte, which keeps the common chunk from being verbatim
      have hnc := not_startsVerbatim_of_star hctok
      have hnd := not_startsVerbatim_of_star hdtok
      have hbyte : ∀ b ∈ [sharp], ChunkByte b := by simp [ChunkByte, sharp, delimiter, star, dsl0]
      have hlonger : ∀ {p : List (Option UInt8)} {x : Bytes},
          Matches (fun a b : UInt8 ↦ a = b) ChunkByte (none :: p) x →
            Matches (fun a b : UInt8 ↦ a = b) ChunkByte (none :: p) (sharp :: x) := by
        intro p x h
        obtain ⟨u, v, rfl, hu, hv⟩ := matches_star_iff.mp h
        refine matches_star_iff.mpr ⟨sharp :: u, v, rfl, ?_, hv⟩
        intro b hb
        rcases mem_cons.mp hb with rfl | hb
        · exact hbyte _ (by simp)
        · exact hu b hb
      have hnx : ¬ StartsVerbatim (sharp :: x) := by simp [StartsVerbatim, sharp, verbatim]
      rw [hctok] at hcx
      rw [hdtok] at hdx
      refine ⟨sharp :: x, hc.concreteMatch_iff.mpr ⟨?_, iff_of_false hnc hnx⟩,
        hd.concreteMatch_iff.mpr ⟨?_, iff_of_false hnd hnx⟩⟩
      · rw [hctok]
        exact hlonger hcx
      · rw [hdtok]
        exact hlonger hdx

/-- Every chunk other than `**` stands for some concrete chunk. -/
theorem exists_concreteMatch (hc : AlignedLetter c) : ∃ x, ConcreteMatch c x := by
  by_cases hcs : c = starChunk
  · refine ⟨[sharp], by decide, ?_⟩
    rw [ChunkMatches, if_pos hcs]
    decide
  · have htok := hc.tokenChunk hcs
    obtain ⟨w, hw⟩ := exists_matches ChunkByte (liveLetters_eq (tokenize c))
    obtain ⟨x, hx, -⟩ := (lettersMeet_iff_overlap htok htok Iff.rfl).mpr ⟨w, hw, hw⟩
    exact ⟨x, hx⟩

theorem lettersMeet_star_iff (hd : AlignedLetter d) :
    LettersMeet ConcreteMatch starChunk d ↔ ¬ StartsVerbatim d := by
  constructor
  · rintro ⟨x, hx, hdx⟩ hverb
    rw [hdx.startsVerbatim_iff, ← hx.startsVerbatim_iff] at hverb
    exact not_startsVerbatim_starChunk hverb
  · intro hverb
    obtain ⟨x, hx⟩ := exists_concreteMatch hd
    refine ⟨x, ⟨hx.1, ?_⟩, hx⟩
    rw [ChunkMatches, if_pos rfl]
    exact mt hx.startsVerbatim_iff.mpr hverb

theorem lettersMeet_comm : LettersMeet ConcreteMatch c d ↔ LettersMeet ConcreteMatch d c := by
  constructor <;>
  · rintro ⟨x, h₁, h₂⟩
    exact ⟨x, h₂, h₁⟩

theorem verbatimAgree_iff : verbatimAgree c d = true ↔ (StartsVerbatim c ↔ StartsVerbatim d) := by
  rw [verbatimAgree, decide_eq_true_iff]

theorem LettersMeet.verbatimAgree (h : LettersMeet ConcreteMatch c d) :
    StartsVerbatim c ↔ StartsVerbatim d := by
  obtain ⟨x, hc, hd⟩ := h
  rw [hc.startsVerbatim_iff, hd.startsVerbatim_iff]

/-- The forward chunk matcher decides whether two chunks have a concrete chunk in common. -/
theorem chunkFwd_intersects_iff (hc : AlignedLetter c) (hd : AlignedLetter d) :
    chunkFwd .intersects c d = true ↔ LettersMeet ConcreteMatch c d := by
  rw [chunkFwd, Bool.and_eq_true, verbatimAgree_iff]
  constructor
  · rintro ⟨hagree, h⟩
    by_cases hcs : c = starChunk
    · subst hcs
      rw [lettersMeet_star_iff hd, ← hagree]
      exact not_startsVerbatim_starChunk
    by_cases hds : d = starChunk
    · subst hds
      rw [lettersMeet_comm, lettersMeet_star_iff hc, hagree]
      exact not_startsVerbatim_starChunk
    have htc := hc.tokenChunk hcs
    have htd := hd.tokenChunk hds
    rw [beq_false_of_ne hcs, Bool.false_or, if_neg hds] at h
    rw [lettersMeet_iff_overlap htc htd hagree]
    exact (tokenForward_iff htc.literal htd.literal htc.reduced htd.reduced).mp h
  · intro h
    have hagree := LettersMeet.verbatimAgree h
    refine ⟨hagree, ?_⟩
    by_cases hcs : c = starChunk
    · simp [hcs]
    by_cases hds : d = starChunk
    · simp [hds, MatchOp.typeIntersects]
    have htc := hc.tokenChunk hcs
    have htd := hd.tokenChunk hds
    rw [beq_false_of_ne hcs, Bool.false_or, if_neg hds]
    rw [lettersMeet_iff_overlap htc htd hagree] at h
    exact (tokenForward_iff htc.literal htd.literal htc.reduced htd.reduced).mpr h

/-- Two patterns the backward scan accepts while only one chunk is verbatim: the same letters, with
at most a star in front of one of them. -/
theorem stripFront_disagree {both : Bool}
    (h : stripFront both (· == ·) (· == ·) (fun _ ↦ false) (tokenOnStarBackward both false) p q =
      some true) : p = q ∨ p = q ++ [none] ∨ q = p ++ [none] := by
  induction p generalizing q with
  | nil =>
    simp only [stripFront, Option.some.injEq, Bool.or_eq_true, List.isEmpty_iff, Bool.and_eq_true,
      isLoneStar_iff] at h
    rcases h with rfl | ⟨-, rfl⟩ <;> simp
  | cons a p ih =>
    cases q with
    | nil =>
      simp only [stripFront, some.injEq, isLoneStar_iff] at h
      simp [h]
    | cons b q =>
      cases a with
      | none => simp [stripFront, stripBack_disagree] at h
      | some a =>
        cases b with
        | none =>
          rw [stripFront] at h
          split_ifs at h
          · simp [stripBack_disagree] at h
          · simp at h
        | some b =>
          rw [stripFront] at h
          split_ifs at h with hab
          · rw [beq_iff_eq] at hab
            subst hab
            rcases ih h with h | h | h <;> simp [h]
          · simp at h

theorem tokenize_of_startsVerbatim (h : StartsVerbatim c) : some verbatim ∈ tokenize c := by
  cases c with
  | nil => simp [StartsVerbatim] at h
  | cons a c =>
    obtain rfl : a = verbatim := by simpa [StartsVerbatim] using h
    rw [tokenize_cons_of_ne (by decide)]
    exact mem_cons_self

/-- A star in front of a verbatim pattern would put its `@` inside the chunk. -/
theorem TokenChunk.not_star_cons (hc : TokenChunk c) (htok : tokenize c = none :: tokenize d) :
    ¬ StartsVerbatim d := by
  intro hverb
  have hmem := mem_untokenize (tokenize_of_startsVerbatim hverb)
  have htail : c.tail = star :: untokenize (tokenize d) := by
    rw [← untokenize_tokenize c, htok, untokenize, tail_cons]
  exact hc.aligned (by rw [htail]; exact mem_cons_of_mem _ hmem)

theorem tokenBackward_agree {both : Bool} (hc : TokenChunk c) (hd : TokenChunk d)
    (h : tokenBackward both (verbatimAgree c d) (tokenize c) (tokenize d) = true) :
    verbatimAgree c d = true := by
  by_contra hagree
  rw [Bool.not_eq_true] at hagree
  rw [hagree, tokenBackward, beq_some_true_iff] at h
  rw [verbatimAgree, decide_eq_false_iff_not] at hagree
  rcases stripFront_disagree h with h | h | h
  · -- the same pattern
    have hcd : c = d := by
      rw [← untokenize_tokenize c, ← untokenize_tokenize d, reverse_injective h]
    exact hagree (by rw [hcd])
  · have htok : tokenize c = none :: tokenize d := by
      have := congrArg List.reverse h
      simpa using this
    exact hagree (iff_of_false (not_startsVerbatim_of_star htok) (hc.not_star_cons htok))
  · have htok : tokenize d = none :: tokenize c := by
      have := congrArg List.reverse h
      simpa using this
    exact hagree (iff_of_false (hd.not_star_cons htok) (not_startsVerbatim_of_star htok))

/-- The backward chunk matcher decides whether two chunks have a concrete chunk in common. -/
theorem chunkBwd_intersects_iff (hc : AlignedLetter c) (hd : AlignedLetter d) :
    chunkBwd .intersects c d = true ↔ LettersMeet ConcreteMatch c d := by
  rw [chunkBwd]
  by_cases hcs : c = starChunk
  · subst hcs
    rw [if_pos rfl, lettersMeet_star_iff hd]
    simp
  by_cases hds : d = starChunk
  · subst hds
    rw [if_neg hcs, if_pos rfl, lettersMeet_comm, lettersMeet_star_iff hc]
    simp [MatchOp.typeIntersects]
  have htc := hc.tokenChunk hcs
  have htd := hd.tokenChunk hds
  rw [if_neg hcs, if_neg hds]
  constructor
  · intro h
    have hagree := tokenBackward_agree htc htd h
    rw [hagree] at h
    rw [lettersMeet_iff_overlap htc htd (verbatimAgree_iff.mp hagree)]
    exact (tokenBackward_iff htc.literal htd.literal htc.reduced htd.reduced).mp h
  · intro h
    have hagree := LettersMeet.verbatimAgree h
    rw [verbatimAgree_iff.mpr hagree]
    rw [lettersMeet_iff_overlap htc htd hagree] at h
    exact (tokenBackward_iff htc.literal htd.literal htc.reduced htd.reduced).mpr h

/-! ### Inclusion of chunks -/

theorem letterCovers_star (hverb : ¬ StartsVerbatim d) :
    LetterCovers ConcreteMatch starChunk d := by
  intro x hx
  refine ⟨hx.1, ?_⟩
  rw [ChunkMatches, if_pos rfl]
  exact mt hx.startsVerbatim_iff.mpr hverb

theorem letterCovers_of_covers (hc : TokenChunk c) (hd : TokenChunk d)
    (hagree : StartsVerbatim c ↔ StartsVerbatim d)
    (h : Covers (fun a b : UInt8 ↦ a = b) ChunkByte (tokenize c) (tokenize d)) :
    LetterCovers ConcreteMatch c d := by
  intro x hx
  obtain ⟨hmatch, hverb⟩ := hd.concreteMatch_iff.mp hx
  exact hc.concreteMatch_iff.mpr ⟨h x hmatch, hagree.trans hverb⟩

/-- A yes of the forward chunk matcher as `includes`: the left chunk stands for every concrete chunk
the right one stands for. -/
theorem chunkFwd_includes_covers (hc : AlignedLetter c) (hd : AlignedLetter d)
    (h : chunkFwd .includes c d = true) : LetterCovers ConcreteMatch c d := by
  rw [chunkFwd, Bool.and_eq_true, verbatimAgree_iff] at h
  obtain ⟨hagree, h⟩ := h
  by_cases hcs : c = starChunk
  · subst hcs
    exact letterCovers_star (mt hagree.mpr not_startsVerbatim_starChunk)
  by_cases hds : d = starChunk
  · simp [hcs, hds, MatchOp.typeIntersects] at h
  have htc := hc.tokenChunk hcs
  have htd := hd.tokenChunk hds
  rw [beq_false_of_ne hcs, Bool.false_or, if_neg hds] at h
  exact letterCovers_of_covers htc htd hagree
    (tokenForward_covers htc.literal htd.literal htc.reduced htd.reduced h)

/-- A yes of the backward chunk matcher as `includes`. -/
theorem chunkBwd_includes_covers (hc : AlignedLetter c) (hd : AlignedLetter d)
    (h : chunkBwd .includes c d = true) : LetterCovers ConcreteMatch c d := by
  rw [chunkBwd] at h
  by_cases hcs : c = starChunk
  · subst hcs
    rw [if_pos rfl] at h
    exact letterCovers_star (by simpa using h)
  by_cases hds : d = starChunk
  · simp [hcs, hds, MatchOp.typeIntersects] at h
  have htc := hc.tokenChunk hcs
  have htd := hd.tokenChunk hds
  rw [if_neg hcs, if_neg hds] at h
  have hagree := tokenBackward_agree htc htd h
  rw [hagree] at h
  exact letterCovers_of_covers htc htd (verbatimAgree_iff.mp hagree)
    (tokenBackward_covers htc.literal htd.literal htc.reduced htd.reduced h)

end ZenohPico.Keyexpr
