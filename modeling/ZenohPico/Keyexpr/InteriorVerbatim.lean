import ZenohPico.Keyexpr.CanonizeMeaning

/-!
An `@` that does not open a chunk. For the keys that a key expression stands for it is a byte like
others, but the matchers look for verbatim chunks with a search for an `@` anywhere in a range, and
compare the ends of chunks without looking at how they start. `keyexprMatch_replaceInterior` says
that another byte may take its place wherever the matchers do not come upon it in this way.
-/

namespace ZenohPico.Keyexpr

open Foundations List Option

/-! ### Another byte in the place of an `@` -/

/-- The byte `x` in the place of an `@` -/
def replaceByte (x b : UInt8) : UInt8 := if b = verbatim then x else b

/-- The byte `x` in the place of each `@` that does not open a chunk, in a text whose first byte
opens one or not -/
def replaceFrom (x : UInt8) : Bool → Bytes → Bytes
  | _, [] => []
  | opens, b :: s =>
    (if opens then b else replaceByte x b) :: replaceFrom x (decide (b = delimiter)) s

/-- The byte `x` in the place of each `@` that does not open a chunk -/
def replaceInterior (x : UInt8) (s : Bytes) : Bytes := replaceFrom x true s

/-- A byte without a meaning of its own in a key expression or a string -/
def Ordinary (x : UInt8) : Prop := Literal x ∧ x ≠ verbatim ∧ x ≠ delimiter ∧ x ≠ 0

instance (x : UInt8) : Decidable (Ordinary x) := by
  unfold Ordinary
  infer_instance

variable {α β : Type*} {b : UInt8}

section Bytes

variable {x : UInt8}

theorem replaceByte_of_ne (h : b ≠ verbatim) : replaceByte x b = b := if_neg h

/-- Bytes other than the fresh one are told apart as before. -/
theorem replaceByte_inj {a : UInt8} (ha : a ≠ x) (hb : b ≠ x) :
    replaceByte x a = replaceByte x b ↔ a = b := by
  rw [replaceByte, replaceByte]
  split_ifs with hav hbv hbv
  · exact iff_of_true rfl (hav.trans hbv.symm)
  · exact iff_of_false (Ne.symm hb) fun h ↦ hbv (h ▸ hav)
  · exact iff_of_false ha fun h ↦ hav (h.trans hbv)
  · exact Iff.rfl

theorem replaceByte_eq_iff {d : UInt8} (hx : x ≠ d) (hd : d ≠ verbatim) :
    replaceByte x b = d ↔ b = d := by
  rw [replaceByte]
  split_ifs with hb
  · exact iff_of_false hx fun h ↦ hd (h.symm.trans hb)
  · exact Iff.rfl

theorem replaceByte_ne_verbatim (hx : x ≠ verbatim) (b : UInt8) : replaceByte x b ≠ verbatim := by
  rw [replaceByte]
  split_ifs with hb
  · exact hx
  · exact hb

theorem length_replaceFrom (opens : Bool) (s : Bytes) :
    (replaceFrom x opens s).length = s.length := by
  induction s generalizing opens with
  | nil => rfl
  | cons b s ih => rw [replaceFrom, length_cons, length_cons, ih]

/-- The byte `strncmp` reads, a terminator at the end of the text -/
theorem headD_replaceFrom (opens : Bool) (s : Bytes) : (replaceFrom x opens s).headD 0 =
    if opens then s.headD 0 else replaceByte x (s.headD 0) := by
  cases s with
  | nil => cases opens <;> rfl
  | cons b s => rfl

theorem tail_replaceFrom (opens : Bool) (s : Bytes) : (replaceFrom x opens s).tail =
    replaceFrom x (decide (s.headD 0 = delimiter)) s.tail := by
  cases s <;> rfl

/-- The comparison up to a terminator does not see the replacement. -/
theorem strncmpEq_replaceFrom (hx : x ≠ 0) (opens : Bool) {l r : Bytes} (hl : x ∉ l) (hr : x ∉ r)
    (n : ℕ) : strncmpEq (replaceFrom x opens l) (replaceFrom x opens r) n = strncmpEq l r n := by
  have hfresh : ∀ {s : Bytes}, x ∉ s → s.headD 0 ≠ x := by
    intro s hs
    cases s with
    | nil => exact hx.symm
    | cons b s => exact fun h ↦ hs (h ▸ mem_cons_self)
  induction n generalizing opens l r with
  | zero => rfl
  | succ n ih =>
    have hsame : (replaceFrom x opens l).headD 0 = (replaceFrom x opens r).headD 0 ↔
        l.headD 0 = r.headD 0 := by
      rw [headD_replaceFrom, headD_replaceFrom]
      split_ifs
      · exact Iff.rfl
      · exact replaceByte_inj (hfresh hl) (hfresh hr)
    have hend : (replaceFrom x opens l).headD 0 = 0 ↔ l.headD 0 = 0 := by
      rw [headD_replaceFrom]
      split_ifs
      · exact Iff.rfl
      · exact replaceByte_eq_iff hx (by decide)
    rw [strncmpEq, strncmpEq]
    simp only [ne_eq, hsame, hend, ite_not]
    split_ifs with hlr hzero
    · rfl
    · rw [tail_replaceFrom, tail_replaceFrom, ← hlr]
      exact ih _ (fun h ↦ hl (mem_of_mem_tail h)) fun h ↦ hr (mem_of_mem_tail h)
    · rfl

/-- Two key expressions are taken for the same with the replacement as they were without. -/
theorem sameKeyexpr_replaceInterior (hx : x ≠ 0) {l r : Bytes} (hl : x ∉ l) (hr : x ∉ r) :
    sameKeyexpr (replaceInterior x l) (replaceInterior x r) = sameKeyexpr l r := by
  simp only [sameKeyexpr, replaceInterior, length_replaceFrom, strncmpEq_replaceFrom hx true hl hr]

end Bytes

/-! ### Chunks -/

/-- The byte `x` in the place of each `@` of a chunk that is not its first byte -/
def replaceTail (x : UInt8) : Bytes → Bytes
  | [] => []
  | b :: c => b :: c.map (replaceByte x)

section Chunks

variable {x : UInt8}

theorem replaceFrom_of_delimiter_notMem {c : Bytes} (hc : delimiter ∉ c) :
    replaceFrom x false c = c.map (replaceByte x) := by
  induction c with
  | nil => rfl
  | cons b c ih =>
    have hb : b ≠ delimiter := fun h ↦ hc (h ▸ mem_cons_self)
    rw [replaceFrom, decide_eq_false hb, ih fun h ↦ hc (mem_cons_of_mem _ h)]
    rfl

theorem replaceFrom_append_delimiter {c : Bytes} (hc : delimiter ∉ c) (opens : Bool) (t : Bytes) :
    replaceFrom x opens (c ++ delimiter :: t) =
      replaceFrom x opens c ++ delimiter :: replaceFrom x true t := by
  induction c generalizing opens with
  | nil =>
    rw [nil_append, replaceFrom, replaceFrom, decide_eq_true rfl,
      replaceByte_of_ne (by decide), ite_self, nil_append]
  | cons b c ih =>
    rw [cons_append, replaceFrom, replaceFrom, ih fun h ↦ hc (mem_cons_of_mem _ h), cons_append]

theorem replaceFrom_true_of_delimiter_notMem {c : Bytes} (hc : delimiter ∉ c) :
    replaceFrom x true c = replaceTail x c := by
  cases c with
  | nil => rfl
  | cons b c =>
    have hb : b ≠ delimiter := fun h ↦ hc (h ▸ mem_cons_self)
    rw [replaceFrom, decide_eq_false hb,
      replaceFrom_of_delimiter_notMem fun h ↦ hc (mem_cons_of_mem _ h)]
    rfl

/-- The replacement is made chunk by chunk. -/
theorem replaceInterior_joinChunks {cs : List Bytes} (hne : cs ≠ [])
    (hfree : ∀ c ∈ cs, delimiter ∉ c) :
    replaceInterior x (joinChunks cs) = joinChunks (cs.map (replaceTail x)) := by
  rw [replaceInterior]
  induction cs with
  | nil => exact absurd rfl hne
  | cons c cs ih =>
    have hc := hfree c mem_cons_self
    rcases eq_or_ne cs [] with rfl | hcs
    · rw [joinChunks_singleton, map_singleton, joinChunks_singleton,
        replaceFrom_true_of_delimiter_notMem hc]
    · rw [joinChunks_cons c hcs, replaceFrom_append_delimiter hc,
        replaceFrom_true_of_delimiter_notMem hc,
        ih hcs fun d hd ↦ hfree d (mem_cons_of_mem _ hd), map_cons,
        joinChunks_cons _ (by simpa using hcs)]

theorem replaceTail_of_not_startsVerbatim {c : Bytes} (h : ¬ StartsVerbatim c) :
    replaceTail x c = c.map (replaceByte x) := by
  cases c with
  | nil => rfl
  | cons b c =>
    have hb : b ≠ verbatim := fun hb ↦ h (congrArg some hb)
    rw [replaceTail, map_cons, replaceByte_of_ne hb]

theorem startsVerbatim_replaceTail_iff {c : Bytes} :
    StartsVerbatim (replaceTail x c) ↔ StartsVerbatim c := by
  cases c <;> exact Iff.rfl

theorem delimiter_notMem_replaceTail (hx : x ≠ delimiter) {c : Bytes} (hc : delimiter ∉ c) :
    delimiter ∉ replaceTail x c := by
  cases c with
  | nil => exact hc
  | cons b c =>
    simp only [mem_cons, not_or] at hc
    simp only [replaceTail, mem_cons, List.mem_map, not_or, not_exists, not_and]
    exact ⟨hc.1, fun d hd h ↦ hc.2 ((replaceByte_eq_iff hx (by decide)).mp h ▸ hd)⟩

theorem verbatim_notMem_tail_replaceTail (hx : x ≠ verbatim) (c : Bytes) :
    verbatim ∉ (replaceTail x c).tail := by
  cases c with
  | nil => exact not_mem_nil
  | cons b c =>
    simp only [replaceTail, tail_cons, List.mem_map, not_exists, not_and]
    exact fun d _ ↦ replaceByte_ne_verbatim hx d

/-- Chunks without an `@` are as they were. -/
theorem replaceTail_of_verbatim_notMem {c : Bytes} (hc : verbatim ∉ c) : replaceTail x c = c := by
  cases c with
  | nil => rfl
  | cons b c =>
    rw [replaceTail, List.map_congr_left (g := id), List.map_id]
    exact fun d hd ↦ replaceByte_of_ne fun h ↦ hc (h ▸ mem_cons_of_mem _ hd)

/-- A text with neither an `@` nor the fresh byte comes from itself only. -/
theorem replaceTail_eq_iff {c t : Bytes} (hx : x ∉ t) (ht : verbatim ∉ t) :
    replaceTail x c = t ↔ c = t := by
  constructor
  · rintro rfl
    refine (replaceTail_of_verbatim_notMem fun hmem ↦ ?_).symm
    cases c with
    | nil => exact absurd hmem not_mem_nil
    | cons b c =>
      rcases mem_cons.mp hmem with rfl | hmem
      · exact ht mem_cons_self
      · exact hx (mem_cons_of_mem _ (List.mem_map.mpr ⟨verbatim, hmem, if_pos rfl⟩))
  · rintro rfl
    exact replaceTail_of_verbatim_notMem ht

theorem chunks_replaceInterior (hx : x ≠ delimiter) (s : Bytes) :
    chunks (replaceInterior x s) = (chunks s).map (replaceTail x) := by
  have hfree : ∀ c ∈ chunks s, delimiter ∉ c := fun c hc ↦ delimiter_notMem_of_mem_chunks hc
  have hjoin := replaceInterior_joinChunks (x := x) (chunks_ne_nil s) hfree
  rw [joinChunks_chunks] at hjoin
  rw [hjoin, chunks_joinChunks (by simpa using chunks_ne_nil s)]
  intro c hc
  obtain ⟨d, hd, rfl⟩ := List.mem_map.mp hc
  exact delimiter_notMem_replaceTail hx (hfree d hd)

end Chunks

/-! ### The patterns of chunks -/

section Tokens

variable {x : UInt8}

/-- The pattern of a text with the replacement -/
theorem tokenize_map (hx : Literal x) (c : Bytes) :
    tokenize (c.map (replaceByte x)) = (tokenize c).map (Option.map (replaceByte x)) := by
  match c with
  | [] => rfl
  | [b] => rfl
  | a :: b :: c =>
    have hpair : replaceByte x a = dsl0 ∧ replaceByte x b = star ↔ a = dsl0 ∧ b = star :=
      and_congr (replaceByte_eq_iff hx.2.2.1 (by decide)) (replaceByte_eq_iff hx.2.2.2 (by decide))
    rw [map_cons, map_cons, tokenize, tokenize]
    simp only [hpair]
    split_ifs with h
    · rw [tokenize_map hx c]
      rfl
    · have hrest := tokenize_map hx (b :: c)
      rw [map_cons] at hrest
      rw [hrest]
      rfl

theorem untokenize_map (p : List (Option UInt8)) :
    untokenize (p.map (Option.map (replaceByte x))) = (untokenize p).map (replaceByte x) := by
  induction p with
  | nil => rfl
  | cons a p ih =>
    cases a with
    | none =>
      rw [map_cons, map_none, untokenize, untokenize, ih, map_cons, map_cons,
        replaceByte_of_ne (by decide), replaceByte_of_ne (by decide)]
    | some b => rw [map_cons, map_some, untokenize, untokenize, ih, map_cons]

theorem endsInStar_map (f : α → β) (p : List (Option α)) :
    endsInStar (p.map (Option.map f)) = endsInStar p := by
  cases p using List.reverseRecOn with
  | nil => rfl
  | append_singleton p a =>
    rw [map_append, map_singleton, endsInStar_concat, endsInStar_concat, isNone_map]

/-- The patterns of fresh letters: the fresh byte is not one of them. -/
abbrev FreshLetters (x : UInt8) (p : List (Option UInt8)) : Prop := AllLetters (· ≠ x) p

theorem freshLetters_tokenize {c : Bytes} (hc : x ∉ c) : FreshLetters x (tokenize c) := by
  rintro b hb rfl
  exact hc (mem_of_mem_tokenize hb)

theorem beq_replaceByte {a : UInt8} (ha : a ≠ x) (hb : b ≠ x) :
    (replaceByte x a == replaceByte x b) = (a == b) := by
  rw [Bool.eq_iff_iff, beq_iff_eq, beq_iff_eq, replaceByte_inj ha hb]

variable {p q : List (Option UInt8)}

theorem tokenSpecial_map (hx : Literal x) (both : Bool) (hp : FreshLetters x p)
    (hq : FreshLetters x q) :
    tokenSpecial both (p.map (Option.map (replaceByte x))) (q.map (Option.map (replaceByte x))) =
      tokenSpecial both p q := by
  have hany : (q.map (Option.map (replaceByte x))).any Option.isNone = q.any Option.isNone := by
    rw [List.any_map]
    congr 1
    funext a
    exact isNone_map
  have htext : ∀ b ∈ untokenize q, b ≠ x := by
    rintro b hb rfl
    rcases mem_of_mem_untokenize hb with hb | hb | hb
    · exact hq b hb rfl
    · exact hx.2.2.1 hb
    · exact hx.2.2.2 hb
  rw [tokenSpecial, tokenSpecial, hany, segments_map, untokenize_map,
    searchSegments_map (replaceByte x) fun seg hseg a ha b hb ↦
      beq_replaceByte (hp a (mem_of_mem_segments hseg ha)) (htext b hb)]

theorem tokenOnStar_map (hx : Literal x) (both : Bool)
    {orient : List (Option UInt8) → List (Option UInt8)} (hmem : ∀ p, orient p ⊆ p)
    (horient : ∀ p, orient (p.map (Option.map (replaceByte x))) =
      (orient p).map (Option.map (replaceByte x))) (hp : FreshLetters x p) (hq : FreshLetters x q) :
    tokenOnStar both orient (p.map (Option.map (replaceByte x)))
      (q.map (Option.map (replaceByte x))) = tokenOnStar both orient p q := by
  have hdrop : FreshLetters x p.dropLast := hp.of_subset (dropLast_subset p)
  rw [tokenOnStar, tokenOnStar, endsInStar_map, ← map_dropLast, horient, horient,
    tokenSpecial_map hx both (hdrop.of_subset (hmem _)) (hq.of_subset (hmem q))]

theorem tokenForward_map (hx : Literal x) (both : Bool) (hp : FreshLetters x p)
    (hq : FreshLetters x q) :
    tokenForward both (p.map (Option.map (replaceByte x))) (q.map (Option.map (replaceByte x))) =
      tokenForward both p q := by
  rw [tokenForward, tokenForward, stripFront_map_eq (replaceByte x) fun a b ha hb ↦
    beq_replaceByte (hp a ha) (hq b hb)]
  exact meetsFront_true.imp (G := (· ≠ x)) (fun _ _ _ ↦ rfl)
    (fun y z hy hz _ ↦ congrArg some
      (tokenOnStar_map hx both (fun _ ↦ List.Subset.refl _) (fun _ ↦ rfl) hy hz))
    (fun a b ha hb _ ↦ beq_replaceByte ha hb) hp hq

theorem tokenBackward_map (hx : Literal x) (both agree : Bool) (hp : FreshLetters x p)
    (hq : FreshLetters x q) : tokenBackward both agree (p.map (Option.map (replaceByte x)))
      (q.map (Option.map (replaceByte x))) = tokenBackward both agree p q := by
  have hp' := allLetters_reverse hp
  have hq' := allLetters_reverse hq
  rw [tokenBackward, tokenBackward, ← map_reverse, ← map_reverse,
    stripFront_map_eq (replaceByte x) fun a b ha hb ↦ beq_replaceByte (hp' a ha) (hq' b hb)]
  refine meetsFront_true.imp (G := (· ≠ x)) (fun _ _ _ ↦ rfl) (fun y z hy hz _ ↦ ?_)
    (fun a b ha hb _ ↦ beq_replaceByte ha hb) hp' hq'
  rw [tokenOnStarBackward, tokenOnStarBackward, tokenOnStar_map hx both
    (fun _ _ h ↦ mem_reverse.mp h) (fun _ ↦ map_reverse.symm) hy hz]

end Tokens

/-! ### The chunk matchers -/

section Matchers

variable {x : UInt8} {op : MatchOp} {both : Bool} {c d : Bytes}

theorem exists_of_startsVerbatim (h : StartsVerbatim c) : ∃ c', c = verbatim :: c' := by
  cases c with
  | nil => exact absurd h (by decide)
  | cons b c => exact ⟨c, congrArg (· :: c) (some.inj h)⟩

theorem tokenize_replaceTail (hx : Literal x) (h : ¬ StartsVerbatim c) :
    tokenize (replaceTail x c) = (tokenize c).map (Option.map (replaceByte x)) := by
  rw [replaceTail_of_not_startsVerbatim h, tokenize_map hx]

theorem tokenize_replaceTail_verbatim (hx : Literal x) (c : Bytes) :
    tokenize (replaceTail x (verbatim :: c)) =
      some verbatim :: (tokenize c).map (Option.map (replaceByte x)) := by
  rw [replaceTail, tokenize_cons_of_ne (by decide), tokenize_map hx]

theorem tokenForward_cons_letter (a : UInt8) (p q : List (Option UInt8)) :
    tokenForward both (some a :: p) (some a :: q) = tokenForward both p q := by
  rw [tokenForward, stripFront, if_pos (beq_self_eq_true a), tokenForward]

theorem tokenBackward_cons_letter (a : UInt8) (p q : List (Option UInt8)) :
    tokenBackward both true (some a :: p) (some a :: q) = tokenBackward both true p q := by
  rw [tokenBackward, reverse_cons, reverse_cons,
    stripFront_concat_letter (beq_self_eq_true a) rfl, tokenBackward]

/-- Two chunks that both start with `@`, or both do not, are scanned as before. -/
theorem tokenForward_replaceTail (hx : Literal x) (hc : x ∉ c) (hd : x ∉ d)
    (hagree : StartsVerbatim c ↔ StartsVerbatim d) :
    tokenForward both (tokenize (replaceTail x c)) (tokenize (replaceTail x d)) =
      tokenForward both (tokenize c) (tokenize d) := by
  by_cases hverb : StartsVerbatim c
  · obtain ⟨c, rfl⟩ := exists_of_startsVerbatim hverb
    obtain ⟨d, rfl⟩ := exists_of_startsVerbatim (hagree.mp hverb)
    rw [tokenize_replaceTail_verbatim hx, tokenize_replaceTail_verbatim hx,
      tokenize_cons_of_ne (by decide), tokenize_cons_of_ne (by decide), tokenForward_cons_letter,
      tokenForward_cons_letter]
    exact tokenForward_map hx both (freshLetters_tokenize fun h ↦ hc (mem_cons_of_mem _ h))
      (freshLetters_tokenize fun h ↦ hd (mem_cons_of_mem _ h))
  · rw [tokenize_replaceTail hx hverb, tokenize_replaceTail hx (mt hagree.mpr hverb)]
    exact tokenForward_map hx both (freshLetters_tokenize hc) (freshLetters_tokenize hd)

theorem tokenBackward_replaceTail (hx : Literal x) (hc : x ∉ c) (hd : x ∉ d)
    (hagree : StartsVerbatim c ↔ StartsVerbatim d) :
    tokenBackward both true (tokenize (replaceTail x c)) (tokenize (replaceTail x d)) =
      tokenBackward both true (tokenize c) (tokenize d) := by
  by_cases hverb : StartsVerbatim c
  · obtain ⟨c, rfl⟩ := exists_of_startsVerbatim hverb
    obtain ⟨d, rfl⟩ := exists_of_startsVerbatim (hagree.mp hverb)
    rw [tokenize_replaceTail_verbatim hx, tokenize_replaceTail_verbatim hx,
      tokenize_cons_of_ne (by decide), tokenize_cons_of_ne (by decide), tokenBackward_cons_letter,
      tokenBackward_cons_letter]
    exact tokenBackward_map hx both true
      (freshLetters_tokenize fun h ↦ hc (mem_cons_of_mem _ h))
      (freshLetters_tokenize fun h ↦ hd (mem_cons_of_mem _ h))
  · rw [tokenize_replaceTail hx hverb, tokenize_replaceTail hx (mt hagree.mpr hverb)]
    exact tokenBackward_map hx both true (freshLetters_tokenize hc) (freshLetters_tokenize hd)

theorem replaceTail_eq_starChunk_iff (hx : Literal x) :
    replaceTail x c = starChunk ↔ c = starChunk :=
  replaceTail_eq_iff (fun h ↦ hx.2.2.2 (mem_singleton.mp h)) (by decide)

theorem replaceTail_eq_doubleStar_iff (hx : Literal x) :
    replaceTail x c = doubleStar ↔ c = doubleStar :=
  replaceTail_eq_iff (fun h ↦ hx.2.2.2 (by simpa [doubleStar] using h)) (by decide)

theorem verbatimAgree_replaceTail :
    verbatimAgree (replaceTail x c) (replaceTail x d) = verbatimAgree c d := by
  simp only [verbatimAgree, startsVerbatim_replaceTail_iff]

/-- The forward matcher of chunks looks at their first bytes, and answers as before. -/
theorem chunkFwd_replaceTail (hx : Literal x) (hc : x ∉ c) (hd : x ∉ d) :
    chunkFwd op (replaceTail x c) (replaceTail x d) = chunkFwd op c d := by
  have hstar : (replaceTail x c == starChunk) = (c == starChunk) := by
    rw [Bool.eq_iff_iff, beq_iff_eq, beq_iff_eq, replaceTail_eq_starChunk_iff hx]
  rw [chunkFwd, chunkFwd, verbatimAgree_replaceTail, hstar]
  simp only [replaceTail_eq_starChunk_iff hx]
  rcases hagree : verbatimAgree c d
  · rfl
  · rw [tokenForward_replaceTail hx hc hd (verbatimAgree_iff.mp hagree)]

theorem reduced_map (f : α → β) {p : List (Option α)} :
    Reduced (p.map (Option.map f)) ↔ Reduced p := by
  rw [Reduced, Reduced, isChain_map]
  simp only [ne_eq, map_eq_none_iff]

theorem literal_replaceByte (hx : Literal x) (hb : Literal b) : Literal (replaceByte x b) := by
  rw [replaceByte]
  split_ifs
  · exact hx
  · exact hb

theorem allLetters_map {G : α → Prop} {G' : β → Prop} (f : α → β) (hf : ∀ a, G a → G' (f a))
    {p : List (Option α)} (hp : AllLetters G p) : AllLetters G' (p.map (Option.map f)) := by
  intro b hb
  obtain ⟨a, ha, hab⟩ := List.mem_map.mp hb
  obtain ⟨a, rfl, rfl⟩ := map_eq_some_iff.mp hab
  exact hf a (hp a ha)

/-- A letter of a canonical key expression is one with the replacement. -/
theorem canonicalLetter_replaceTail (hx : Literal x) (hc : CanonicalLetter c) :
    CanonicalLetter (replaceTail x c) := by
  rcases hc with rfl | ⟨hne, hlit, hred, hstar⟩
  · exact Or.inl ((replaceTail_eq_starChunk_iff hx).mpr rfl)
  refine Or.inr ⟨?_, ?_⟩
  · cases c with
    | nil => exact absurd rfl hne
    | cons b c => exact cons_ne_nil _ _
  · by_cases hverb : StartsVerbatim c
    · obtain ⟨c, rfl⟩ := exists_of_startsVerbatim hverb
      rw [tokenize_cons_of_ne (by decide)] at hlit hred
      rw [tokenize_replaceTail_verbatim hx]
      have hrest := allLetters_map (replaceByte x) (fun _ ↦ literal_replaceByte hx)
        (hlit.of_subset (subset_cons_self _ _))
      refine ⟨fun b hb ↦ ?_, ?_, by simp⟩
      · rcases mem_cons.mp hb with hb | hb
        · rw [some.inj hb]
          decide
        · exact hrest b hb
      · exact isChain_cons.mpr
          ⟨fun _ _ ↦ Or.inl (some_ne_none _), (reduced_map _).mpr hred.tail⟩
    · rw [tokenize_replaceTail hx hverb]
      refine ⟨allLetters_map _ (fun _ ↦ literal_replaceByte hx) hlit, (reduced_map _).mpr hred, ?_⟩
      intro h
      obtain ⟨a, ha, hnone⟩ := map_eq_singleton_iff.mp h
      rw [map_eq_none_iff.mp hnone] at ha
      exact hstar ha

/-- With the replacement an `@` stands nowhere but at the start of a chunk. -/
theorem KeyLetter.alignedLetter_replaceTail (hx : Ordinary x) (hc : KeyLetter c) :
    AlignedLetter (replaceTail x c) :=
  ⟨⟨canonicalLetter_replaceTail hx.1 hc.1, delimiter_notMem_replaceTail hx.2.2.1 hc.2⟩,
    verbatim_notMem_tail_replaceTail hx.2.1 c⟩

/-- The backward matcher of chunks answers as before, unless it accepts a chunk that starts with an
`@` with one that does not. -/
theorem chunkBwd_replaceTail (hx : Ordinary x) (hc : KeyLetter c) (hd : KeyLetter d) (hxc : x ∉ c)
    (hxd : x ∉ d) (hpair : chunkBwd op c d = true → verbatimAgree c d = true) :
    chunkBwd op (replaceTail x c) (replaceTail x d) = chunkBwd op c d := by
  rw [chunkBwd, chunkBwd]
  simp only [replaceTail_eq_starChunk_iff hx.1, startsVerbatim_replaceTail_iff]
  split_ifs with hcs hds
  · rfl
  · rfl
  rw [verbatimAgree_replaceTail]
  rcases hagree : verbatimAgree c d
  · -- neither scan accepts
    rw [chunkBwd, if_neg hcs, if_neg hds, hagree] at hpair
    have hnot := Bool.eq_false_iff.mpr fun h ↦ absurd (hpair h) Bool.false_ne_true
    rw [hnot, Bool.eq_false_iff]
    intro h
    have htc := (hc.alignedLetter_replaceTail hx).tokenChunk
      (mt (replaceTail_eq_starChunk_iff hx.1).mp hcs)
    have htd := (hd.alignedLetter_replaceTail hx).tokenChunk
      (mt (replaceTail_eq_starChunk_iff hx.1).mp hds)
    rw [← hagree, ← verbatimAgree_replaceTail (x := x)] at h
    have := tokenBackward_agree htc htd h
    rw [verbatimAgree_replaceTail, hagree] at this
    exact absurd this Bool.false_ne_true
  · exact tokenBackward_replaceTail hx.1 hxc hxd (verbatimAgree_iff.mp hagree)

end Matchers

/-! ### Patterns of chunks -/

/-- A verbatim chunk is one of the pattern. -/
def HasVerbatim (P : List (Option Bytes)) : Prop := ∃ v, some v ∈ P ∧ StartsVerbatim v

/-- A letter of a canonical key expression that the fresh byte does not stand in -/
def FreshChunk (x : UInt8) (c : Bytes) : Prop := KeyLetter c ∧ x ∉ c

/-- A pattern with the replacement in each of its chunks -/
def replacePattern (x : UInt8) (P : List (Option Bytes)) : List (Option Bytes) :=
  P.map (Option.map (replaceTail x))

section Patterns

variable {x : UInt8} {op : MatchOp} {P Q : List (Option Bytes)}

theorem patternOf_map_replaceTail (hx : Literal x) (cs : List Bytes) :
    patternOf (cs.map (replaceTail x)) = replacePattern x (patternOf cs) := by
  rw [patternOf, patternOf, replacePattern, List.map_map, List.map_map]
  refine map_congr_left fun c _ ↦ ?_
  simp only [Function.comp_apply, replaceTail_eq_doubleStar_iff hx]
  split_ifs <;> rfl

theorem HasVerbatim.clean_eq_false (h : HasVerbatim P) : clean P = false := by
  obtain ⟨v, hv, hverb⟩ := h
  rw [Bool.eq_false_iff]
  exact fun hclean ↦ (clean_iff.mp hclean) (some v) hv hverb.mem

theorem HasVerbatim.replacePattern (h : HasVerbatim P) : HasVerbatim (replacePattern x P) := by
  obtain ⟨v, hv, hverb⟩ := h
  exact ⟨Keyexpr.replaceTail x v, List.mem_map.mpr ⟨some v, hv, rfl⟩,
    startsVerbatim_replaceTail_iff.mpr hverb⟩

/-- Patterns without an `@` are as they were. -/
theorem replacePattern_of_clean (h : clean P = true) : replacePattern x P = P := by
  rw [replacePattern, List.map_congr_left (g := id), List.map_id]
  intro a ha
  cases a with
  | none => rfl
  | some c => exact congrArg some (replaceTail_of_verbatim_notMem ((clean_iff.mp h) (some c) ha))

theorem keyLeftovers_replacePattern :
    keyLeftovers op (replacePattern x P) (replacePattern x Q) = keyLeftovers op P Q := by
  simp only [keyLeftovers, replacePattern, isEmpty_map, isLoneStar_map]

theorem keyParts_of_isEmpty (h : (P.isEmpty || Q.isEmpty) = true) :
    keyParts op P Q = some (keyLeftovers op P Q) := by
  rw [keyParts, if_pos h]

/-- With an `@` on one side only, the parts are not compared. -/
theorem keyParts_of_clean_ne (hP : P ≠ []) (hQ : Q ≠ []) (h : clean P ≠ clean Q) :
    keyParts op P Q = some false := by
  rw [keyParts, if_neg (by simp [hP, hQ])]
  split
  case h_1 hcutP hcutQ =>
    rw [cutVerbatim_eq_none_iff] at hcutP hcutQ
    exact absurd (hcutP.trans hcutQ.symm) h
  case h_2 hcutP hcutQ =>
    have hcleanP : clean P = false := by
      rw [← Bool.not_eq_true, ← cutVerbatim_eq_none_iff, hcutP]
      simp
    have hcleanQ : clean Q = false := by
      rw [← Bool.not_eq_true, ← cutVerbatim_eq_none_iff, hcutQ]
      simp
    exact absurd (hcleanP.trans hcleanQ.symm) h
  case h_3 => rfl

/-- The comparison of parts answers as before where it cuts at verbatim chunks. -/
theorem keyParts_replacePattern (hx : Literal x) (h : CutsAtChunks op HasVerbatim P Q)
    (hP : AllLetters (x ∉ ·) P) (hQ : AllLetters (x ∉ ·) Q) :
    keyParts op (replacePattern x P) (replacePattern x Q) = keyParts op P Q := by
  have hempty : ∀ {P Q : List (Option Bytes)}, P = [] ∨ Q = [] →
      keyParts op (replacePattern x P) (replacePattern x Q) = keyParts op P Q := by
    intro P Q h
    have hPQ : (P.isEmpty || Q.isEmpty) = true := by
      rcases h with rfl | rfl
      · rfl
      · exact Bool.or_true _
    rw [keyParts_of_isEmpty hPQ, keyParts_of_isEmpty, keyLeftovers_replacePattern]
    rw [replacePattern, replacePattern, isEmpty_map, isEmpty_map]
    exact hPQ
  have hne : ∀ {P : List (Option Bytes)}, P ≠ [] → replacePattern x P ≠ [] :=
    fun h hmap ↦ h (map_eq_nil_iff.mp hmap)
  induction h with
  | exhausted h => exact hempty h
  | both hcP hcQ => rw [replacePattern_of_clean hcP, replacePattern_of_clean hcQ]
  | @left P Q hcP hverb =>
    rcases eq_or_ne P [] with rfl | hPne
    · exact hempty (Or.inl rfl)
    have hQne : Q ≠ [] := by
      rintro rfl
      exact absurd hverb.clean_eq_false (by decide)
    rw [keyParts_of_clean_ne hPne hQne, keyParts_of_clean_ne (hne hPne) (hne hQne)]
    · rw [replacePattern_of_clean hcP, hcP, hverb.replacePattern.clean_eq_false]
      exact Bool.false_ne_true.symm
    · rw [hcP, hverb.clean_eq_false]
      exact Bool.false_ne_true.symm
  | @right P Q hverb hcQ =>
    rcases eq_or_ne Q [] with rfl | hQne
    · exact hempty (Or.inr rfl)
    have hPne : P ≠ [] := by
      rintro rfl
      exact absurd hverb.clean_eq_false (by decide)
    rw [keyParts_of_clean_ne hPne hQne, keyParts_of_clean_ne (hne hPne) (hne hQne)]
    · rw [replacePattern_of_clean hcQ, hcQ, hverb.replacePattern.clean_eq_false]
      exact Bool.false_ne_true
    · rw [hcQ, hverb.clean_eq_false]
      exact Bool.false_ne_true
  | @cut A B C D v u hA hC hv hu hrest ih =>
    have hcut : ∀ {A B : List (Option Bytes)} {v : Bytes}, clean A = true →
        replacePattern x (A ++ some v :: B) =
          A ++ some (replaceTail x v) :: replacePattern x B := by
      intro A B v hA
      conv_rhs => rw [← replacePattern_of_clean (x := x) hA]
      simp only [replacePattern, map_append, map_cons, map_some]
    rw [hcut hA, hcut hC, keyParts_cut hA hC (startsVerbatim_replaceTail_iff.mpr hv).mem
      (startsVerbatim_replaceTail_iff.mpr hu).mem, keyParts_cut hA hC hv.mem hu.mem,
      chunkFwd_replaceTail hx (hP v (by simp)) (hQ u (by simp))]
    rcases hplain : keyPlain op A C with _ | matched
    · rfl
    · rw [bind_some, bind_some]
      split_ifs with hmatch
      · obtain ⟨rfl, hvu⟩ := Bool.and_eq_true_iff.mp hmatch
        exact ih hplain hvu (hP.of_subset fun _ h ↦ by simp [h]) (hQ.of_subset fun _ h ↦ by simp [h])
      · rfl

/-- The run of the matcher over two patterns comes upon no `@` inside a chunk: the rest that a `**`
is to absorb is without an `@` or has a verbatim chunk, the middles are cut at verbatim chunks, and
the chunks that are accepted from behind are both verbatim or both not. -/
def InteriorUnseen (op : MatchOp) (P Q : List (Option Bytes)) : Prop :=
  MeetsFront op.typeIntersects (chunkFwd op) (chunkBwd op)
    (fun y ↦ clean y = true ∨ HasVerbatim y)
    (fun x y ↦ CutsAtChunks op HasVerbatim (none :: x) y)
    (fun c d ↦ chunkBwd op c d = true → verbatimAgree c d = true) P Q

theorem keyVerbatim_replacePattern (hx : Ordinary x) (hP : AllLetters (FreshChunk x) P)
    (hQ : AllLetters (FreshChunk x) Q) (hunseen : InteriorUnseen op P Q) :
    keyVerbatim op (replacePattern x P) (replacePattern x Q) = keyVerbatim op P Q := by
  rw [keyVerbatim, keyVerbatim, replacePattern, replacePattern]
  refine stripFront_map_eq (replaceTail x)
    (fun c d hc hd ↦ chunkFwd_replaceTail hx.1 (hP c hc).2 (hQ d hd).2) ?_
  refine hunseen.imp (G := FreshChunk x) ?_ ?_ ?_ hP hQ
  · rintro y - (hclean | hverb)
    · exact congrArg clean (replacePattern_of_clean hclean)
    · exact hverb.replacePattern.clean_eq_false.trans hverb.clean_eq_false.symm
  · intro y z hy hz hcut
    exact keyParts_replacePattern hx.1 hcut (fun c hc ↦ (hy c (by simpa using hc)).2)
      fun c hc ↦ (hz c hc).2
  · exact fun c d hc hd hpair ↦ chunkBwd_replaceTail hx hc.1 hd.1 hc.2 hd.2 hpair

end Patterns

/-! ### Key expressions -/

section Answers

variable {x : UInt8} {op : MatchOp} {l r s : Bytes}

theorem Canonical.replaceInterior (hx : Ordinary x) (hs : Canonical s) :
    Canonical (replaceInterior x s) := by
  refine ⟨?_, ?_⟩
  · intro c hc
    rw [chunks_replaceInterior hx.2.2.1] at hc
    obtain ⟨d, hd, rfl⟩ := List.mem_map.mp hc
    rcases canonicalChunk_iff.mp (hs.chunk d hd) with rfl | hletter
    · rw [(replaceTail_eq_doubleStar_iff hx.1).mpr rfl]
      exact canonicalChunk_doubleStar
    · exact (canonicalLetter_replaceTail hx.1 hletter).canonicalChunk
  · rw [chunks_replaceInterior hx.2.2.1, isChain_map]
    refine hs.after_double_star.imp fun a b hab ha ↦ ?_
    have := hab ((replaceTail_eq_doubleStar_iff hx.1).mp ha)
    exact ⟨mt (replaceTail_eq_starChunk_iff hx.1).mp this.1,
      mt (replaceTail_eq_doubleStar_iff hx.1).mp this.2⟩

theorem verbatimAtStart_replaceInterior (hx : Ordinary x) (s : Bytes) :
    VerbatimAtStart (Keyexpr.replaceInterior x s) := by
  intro c hc
  rw [chunks_replaceInterior hx.2.2.1] at hc
  obtain ⟨d, -, rfl⟩ := List.mem_map.mp hc
  exact verbatim_notMem_tail_replaceTail hx.2.1 d

theorem Canonical.freshChunks (hs : Canonical s) (hx : x ∉ s) :
    AllLetters (FreshChunk x) (patternOf (chunks s)) := fun c hc ↦
  ⟨hs.keyLetters c hc, fun h ↦ hx (mem_of_mem_chunks (mem_chunks_of_mem_patternOf hc).1 h)⟩

/-- The two runs come to the same answers, if to any. -/
def SameResult (f g : ℕ → Option Bool) : Prop :=
  ∀ answer, (∃ n, f n = some answer) ↔ ∃ n, g n = some answer

theorem sameResult_of_computes {f g : ℕ → Option Bool} {o : Option Bool} (hf : Computes f o)
    (hg : Computes g o) : SameResult f g := by
  have hanswer : ∀ {h : ℕ → Option Bool}, Computes h o →
      ∀ answer, (∃ n, h n = some answer) ↔ o = some answer := by
    intro h hh answer
    constructor
    · rintro ⟨n, hn⟩
      exact hh.eq_of_eq_some hn
    · rintro rfl
      obtain ⟨n, hn⟩ := hh.2
      exact ⟨n, hn n (Nat.le_refl n)⟩
  exact fun answer ↦ (hanswer hf answer).trans (hanswer hg answer).symm

theorem keyexprMatch_replaceInterior (hl : Canonical l) (hr : Canonical r) (hx : Ordinary x)
    (hxl : x ∉ l) (hxr : x ∉ r)
    (hunseen : sameKeyexpr l r = true ∨
      InteriorUnseen op (patternOf (chunks l)) (patternOf (chunks r))) :
    SameResult (keyexprMatch op (Keyexpr.replaceInterior x l) (Keyexpr.replaceInterior x r))
      (keyexprMatch op l r) := by
  have hreplaced := keyexprMatch_computes (hl.replaceInterior hx) (hr.replaceInterior hx)
    ((verbatimAtStart_replaceInterior hx l).cutBetweenChunks (verbatimAtStart_replaceInterior hx r)
      op)
  rw [sameKeyexpr_replaceInterior hx.2.2.2 hxl hxr] at hreplaced
  refine sameResult_of_computes hreplaced ?_
  have hcomputes := keyexprMatch_computes_of_meets hl hr hunseen
  by_cases hsame : sameKeyexpr l r = true
  · rw [if_pos hsame] at hcomputes ⊢
    exact hcomputes
  · rw [if_neg hsame] at hcomputes ⊢
    rw [chunks_replaceInterior hx.2.2.1, chunks_replaceInterior hx.2.2.1,
      patternOf_map_replaceTail hx.1, patternOf_map_replaceTail hx.1,
      keyVerbatim_replacePattern hx (hl.freshChunks hxl) (hr.freshChunks hxr)
        (hunseen.resolve_left hsame)]
    exact hcomputes

/-- A fresh ordinary byte in the place of each `@` that does not open a chunk changes no answer,
where the matchers come upon no such `@`. -/
theorem keyexpr_matchers_replaceInterior (hl : Canonical l) (hr : Canonical r) (hx : Ordinary x)
    (hxl : x ∉ l) (hxr : x ∉ r)
    (hunseen : ∀ op, sameKeyexpr l r = true ∨
      InteriorUnseen op (patternOf (chunks l)) (patternOf (chunks r))) :
    SameResult (keyexprIntersects (Keyexpr.replaceInterior x l) (Keyexpr.replaceInterior x r))
        (keyexprIntersects l r) ∧
      SameResult (keyexprIncludes (Keyexpr.replaceInterior x l) (Keyexpr.replaceInterior x r))
        (keyexprIncludes l r) :=
  ⟨keyexprMatch_replaceInterior hl hr hx hxl hxr (hunseen .intersects),
    keyexprMatch_replaceInterior hl hr hx hxl hxr (hunseen .includes)⟩

/-- `**/c` against `a@b/@v/c`: what the `**` is to absorb holds a verbatim chunk anyway. -/
theorem keyexpr_matchers_replaceInterior_sample :
    SameResult (keyexprIntersects (joinChunks [doubleStar, [99]])
        (joinChunks [[97, 120, 98], [64, 118], [99]]))
      (keyexprIntersects (joinChunks [doubleStar, [99]])
        (joinChunks [[97, 64, 98], [64, 118], [99]])) ∧
      SameResult (keyexprIncludes (joinChunks [doubleStar, [99]])
        (joinChunks [[97, 120, 98], [64, 118], [99]]))
      (keyexprIncludes (joinChunks [doubleStar, [99]])
        (joinChunks [[97, 64, 98], [64, 118], [99]])) :=
  keyexpr_matchers_replaceInterior (l := joinChunks [doubleStar, [99]])
    (r := joinChunks [[97, 64, 98], [64, 118], [99]]) (x := 120) (by decide) (by decide) (by decide)
    (by decide) (by decide) fun op ↦ by
      have hl : patternOf (chunks (joinChunks [doubleStar, [99]])) = [none, some [99]] := by decide
      have hr : patternOf (chunks (joinChunks [[97, 64, 98], [64, 118], [99]])) =
          [some [97, 64, 98], some [64, 118], some [99]] := by decide
      rw [hl, hr]
      exact Or.inr ⟨fun _ ↦ rfl, fun _ ↦ Or.inr ⟨[64, 118], by decide, rfl⟩⟩

/-- `**` is said not to match `a@b`, but to match `axb`. -/
theorem keyexpr_matchers_interior_seen :
    Canonical doubleStar ∧ Canonical [97, 64, 98] ∧ Ordinary 120 ∧ 120 ∉ doubleStar ∧
      120 ∉ ([97, 64, 98] : Bytes) ∧
      ¬ SameResult (keyexprIntersects (replaceInterior 120 doubleStar)
        (replaceInterior 120 [97, 64, 98])) (keyexprIntersects doubleStar [97, 64, 98]) ∧
      ¬ SameResult (keyexprIncludes (replaceInterior 120 doubleStar)
        (replaceInterior 120 [97, 64, 98])) (keyexprIncludes doubleStar [97, 64, 98]) := by
  have hl : Canonical doubleStar := by decide
  have hr : Canonical [97, 64, 98] := by decide
  -- the run of the code ends with a no, so no amount of fuel gives a yes
  have hno : ∀ op, keyexprMatch op doubleStar [97, 64, 98] 12 = some false →
      ¬ ∃ n, keyexprMatch op doubleStar [97, 64, 98] n = some true := by
    rintro op hfalse ⟨n, htrue⟩
    have hcomputes := @keyexprMatch_computes op _ _ hl hr
      (Or.inr (CutsWhole.middlesWhole op (Or.inl (by decide))))
    have heq := (hcomputes.eq_of_eq_some hfalse).symm.trans (hcomputes.eq_of_eq_some htrue)
    exact absurd heq (by decide)
  refine ⟨hl, hr, by decide, by decide, by decide, fun h ↦ ?_, fun h ↦ ?_⟩
  · exact hno .intersects (by decide +kernel) ((h true).mp ⟨12, by decide +kernel⟩)
  · exact hno .includes (by decide +kernel) ((h true).mp ⟨12, by decide +kernel⟩)

end Answers

end ZenohPico.Keyexpr
