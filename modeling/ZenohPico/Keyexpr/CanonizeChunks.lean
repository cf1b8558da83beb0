import ZenohPico.Keyexpr.CanonizeMemory

/-!
`_z_keyexpr_canonize` as a function of the chunks it is given: where the scanner of the canonical
prefix stops decides whether the string is left as it is, refused, rewritten from some chunk on, or
whether an assertion fails.
-/

namespace ZenohPico.Keyexpr

open Foundations List Option

/-! ### The scanner on chunks -/

/-- Some chunks with a `/` behind each. -/
def leadChunks (cs : List Bytes) : Bytes := cs.flatMap fun c ↦ c ++ [delimiter]

theorem joinChunks_append_cons (P : List Bytes) (c : Bytes) (X : List Bytes) :
    joinChunks (P ++ c :: X) = leadChunks P ++ joinChunks (c :: X) := by
  induction P with
  | nil => rfl
  | cons d P ih =>
    rw [cons_append, joinChunks_cons d (by simp), ih]
    simp [leadChunks]

/-- The scanner passes the chunks `P` and stops at `c`. -/
structure StopsAt (cs P : List Bytes) (inBigWild : Bool) (c : Bytes) (X : List Bytes)
    (status : CanonStatus) : Prop where
  split : cs = P ++ c :: X
  passed : passState false P = some inBigWild
  stop : chunkPass inBigWild c = .done status

theorem passState_append (inBigWild : Bool) (P Q : List Bytes) :
    passState inBigWild (P ++ Q) = (passState inBigWild P).bind fun big ↦ passState big Q := by
  induction P generalizing inBigWild with
  | nil => rfl
  | cons c P ih =>
    rw [cons_append, passState, passState]
    cases chunkPass inBigWild c with
    | next big => exact ih big
    | done status => rfl

theorem passed_or_stopsAt (cs : List Bytes) :
    (∃ big, passState false cs = some big) ∨ ∃ P big c X status, StopsAt cs P big c X status := by
  induction cs using List.reverseRecOn with
  | nil => exact Or.inl ⟨false, rfl⟩
  | append_singleton cs d ih =>
    rcases ih with ⟨big, hbig⟩ | ⟨P, big, c, X, status, h⟩
    · rcases hpass : chunkPass big d with big' | status
      · refine Or.inl ⟨big', ?_⟩
        rw [passState_append, hbig, bind_some, passState, hpass]
        rfl
      · exact Or.inr ⟨cs, big, d, [], status, rfl, hbig, hpass⟩
    · exact Or.inr ⟨P, big, c, X ++ [d], status, by rw [h.split]; simp, h.passed, h.stop⟩

theorem scanChunks_append {len b : ℕ} {inBigWild big : Bool} {P Q : List Bytes}
    (hP : passState inBigWild P = some big) :
    scanChunks len inBigWild b (P ++ Q) = scanChunks len big (b + (leadChunks P).length) Q := by
  induction P generalizing inBigWild b with
  | nil =>
    rw [passState, some.injEq] at hP
    rw [hP]
    rfl
  | cons c P ih =>
    rw [passState] at hP
    rw [cons_append, scanChunks]
    cases hpass : chunkPass inBigWild c with
    | done status => simp [hpass] at hP
    | next big' =>
      rw [hpass] at hP
      have hlen : b + c.length + 1 + (leadChunks P).length = b + (leadChunks (c :: P)).length := by
        simp [leadChunks]
        omega
      simp only
      rw [ih hP, hlen]

variable {cs : List Bytes}

theorem canonPrefix_passed {m : Bytes} {big : Bool} (hne : cs ≠ [])
    (hreads : Reads m 0 (joinChunks cs)) (hfree : ∀ d ∈ cs, delimiter ∉ d)
    (hpass : passState false cs = some big) :
    canonPrefix m (joinChunks cs).length = (.success, (joinChunks cs).length) := by
  obtain ⟨c, cs, rfl⟩ := exists_cons_of_ne_nil hne
  rw [canonPrefix, canonPrefixLoop_of_reads hreads (by omega) hfree]
  rw [← append_nil (c :: cs), scanChunks_append hpass, scanChunks, append_nil]

theorem canonPrefix_stopsAt {m : Bytes} {P X : List Bytes} {big : Bool} {c : Bytes}
    {status : CanonStatus} (h : StopsAt cs P big c X status) (hreads : Reads m 0 (joinChunks cs))
    (hfree : ∀ d ∈ cs, delimiter ∉ d) : canonPrefix m (joinChunks cs).length =
      (status, stopLen (joinChunks cs).length (leadChunks P).length status) := by
  have hne : cs ≠ [] := by
    rw [h.split]
    simp
  obtain ⟨d, ds, hds⟩ := exists_cons_of_ne_nil hne
  rw [hds] at hreads hfree ⊢
  rw [canonPrefix, canonPrefixLoop_of_reads hreads (by omega) hfree, ← hds, h.split,
    scanChunks_append h.passed, scanChunks, h.stop, Nat.zero_add]

/-! ### The text that is scanned -/

/-- The tokens of the string of length `len` in memory. -/
def memTokens (m : Bytes) (len : ℕ) : List (Option UInt8) :=
  tokenizeBefore (byteAt m len) (m.take len)

/-- The text `__zp_singleify` leaves. -/
def singleText (m : Bytes) (len : ℕ) : Bytes := untokenize (collapse false (memTokens m len))

theorem tokensAt_memTokens {m : Bytes} {len : ℕ} (hlen : len ≤ m.length) :
    TokensAt m len 0 (memTokens m len) :=
  tokensAt_of_reads (reads_take hlen) (by simp [hlen])

theorem TokensAt.length_le {m : Bytes} {stop r : ℕ} {q : List (Option UInt8)}
    (h : TokensAt m stop r q) (hstop : stop ≤ m.length) (hr : r ≤ m.length) :
    r + (untokenize q).length ≤ m.length := by
  induction q generalizing r with
  | nil => simpa [untokenize] using hr
  | cons a q ih =>
    cases a with
    | none =>
      obtain ⟨hlt, hneedle, hrest⟩ := h
      have hstar : r + 1 < m.length :=
        lt_length_of_byteAt_ne_zero (by rw [(needleAt_dollarStar.mp hneedle).2]; decide)
      have := ih hrest (by omega)
      simp only [untokenize, length_cons]
      omega
    | some b =>
      have := ih h.2.2.2 (by have := h.1; omega)
      simp only [untokenize, length_cons]
      omega

theorem length_untokenize_collapse_le (behind : Bool) (q : List (Option UInt8)) :
    (untokenize (collapse behind q)).length ≤ (untokenize q).length := by
  induction q generalizing behind with
  | nil => cases behind <;> exact le_rfl
  | cons a q ih =>
    have htrue := ih true
    have hfalse := ih false
    cases a <;> cases behind <;> simp only [collapse, untokenize, length_cons] <;> omega

theorem length_singleText_le {m : Bytes} {len : ℕ} (hlen : len ≤ m.length) :
    (singleText m len).length ≤ m.length := by
  have h := (tokensAt_memTokens hlen).length_le hlen (Nat.zero_le _)
  have hcol := length_untokenize_collapse_le false (memTokens m len)
  rw [singleText]
  omega

/-! ### How the function ends -/

section Ends

variable {m : Bytes} {len : ℕ} {P X : List Bytes} {big : Bool} {c : Bytes} {status : CanonStatus}

theorem free_chunks (s : Bytes) : ∀ d ∈ chunks s, delimiter ∉ d :=
  fun _ hd ↦ delimiter_notMem_of_mem_chunks hd

theorem rewriteChunks_ne_nil {out : List Bytes} (h : rewriteChunks true cs = some out) :
    out ≠ [] := by
  induction cs generalizing out with
  | nil =>
    rw [rewriteChunks, some.injEq] at h
    rw [← h]
    simp [pendingChunks]
  | cons c cs ih =>
    rw [rewriteChunks] at h
    split_ifs at h
    · obtain ⟨out', -, rfl⟩ := map_eq_some_iff.mp h
      simp
    · exact ih h
    · obtain ⟨out', -, rfl⟩ := map_eq_some_iff.mp h
      simp

/-- Nothing is to be rewritten. -/
theorem keyexprCanonize_passed (hlen : len ≤ m.length)
    (h : passState false (chunks (singleText m len)) = some big) :
    ∃ m', keyexprCanonize m len = .returned .success m' (singleText m len).length ∧
      Reads m' 0 (singleText m len) ∧ m'.length = m.length ∧
      (Reduced (memTokens m len) → m' = m) := by
  obtain ⟨m', hsingle, hreads, hlen', hself⟩ := singleify_spec (tokensAt_memTokens hlen) hlen
  have hprefix := canonPrefix_passed (m := m') (chunks_ne_nil _)
    (by rw [joinChunks_chunks]; exact hreads) (free_chunks _) h
  rw [joinChunks_chunks] at hprefix
  refine ⟨m', ?_, hreads, hlen', hself⟩
  simp only [keyexprCanonize, hsingle]
  rw [← singleText, hprefix]

/-- The scanner stops at a malformed chunk. -/
theorem keyexprCanonize_malformed (hlen : len ≤ m.length)
    (h : StopsAt (chunks (singleText m len)) P big c X status) (hstatus : status.malformed = true) :
    ∃ m', keyexprCanonize m len = .returned status m' (singleText m len).length := by
  obtain ⟨m', hsingle, hreads, -, -⟩ := singleify_spec (tokensAt_memTokens hlen) hlen
  have hprefix := canonPrefix_stopsAt (m := m') h (by rw [joinChunks_chunks]; exact hreads)
    (free_chunks _)
  rw [joinChunks_chunks] at hprefix
  refine ⟨m', ?_⟩
  simp only [keyexprCanonize, hsingle]
  rw [← singleText, hprefix]
  cases status <;> simp_all [CanonStatus.malformed]

/-- How a call ends that rewrites what is behind the chunks `P`. -/
def CanonizeEnds (m : Bytes) (len : ℕ) (P : List Bytes) : Option (List Bytes) → Prop
  | some out => ∃ m',
      keyexprCanonize m len = .returned .success m' (joinChunks (P ++ out)).length ∧
        Reads m' 0 (joinChunks (P ++ out)) ∧ m'.length = m.length ∧
        (joinChunks (P ++ out)).length ≤ (singleText m len).length ∧ ∀ c ∈ out, c ≠ []
  | none => ∃ status m',
      keyexprCanonize m len = .returned status m' (singleText m len).length ∧ status ≠ .success

/-- Assumes: from the first chunk behind `P` on, the rewriting ends as given. -/
theorem canonizeEnds_of_rewrite {m' : Bytes} {o : Option (List Bytes)}
    (hreads : Reads m' 0 (singleText m len)) (hlen' : m'.length = m.length)
    (hsplit : singleText m len = leadChunks P ++ joinChunks (c :: cs))
    (hcall : keyexprCanonize m len =
      canonizeRewrite m' (singleText m len).length (leadChunks P).length)
    (hne : ∀ out, o = some out → out ≠ [])
    (h : RewriteEnds m' (singleText m len).length (leadChunks P).length
      (canonizeRewrite m' (singleText m len).length (leadChunks P).length) o) :
    CanonizeEnds m len P o := by
  cases o with
  | none =>
    obtain ⟨status, m'', hout, hstatus⟩ := h
    exact ⟨status, m'', by rw [hcall, hout], hstatus⟩
  | some out =>
    obtain ⟨m'', hout, hwritten, hle, hnil⟩ := h
    obtain ⟨d, out, rfl⟩ := exists_cons_of_ne_nil (hne out rfl)
    have hlead : Reads m'' 0 (leadChunks P) := by
      rw [hsplit, reads_append_iff] at hreads
      exact reads_congr (fun j _ hj ↦ hwritten.below j (by omega)) hreads.1
    refine ⟨m'', ?_, ?_, by rw [hwritten.length, hlen'], ?_, hnil⟩
    · rw [hcall, hout, joinChunks_append_cons, length_append]
    · rw [joinChunks_append_cons, reads_append_iff, Nat.zero_add]
      exact ⟨hlead, hwritten.reads⟩
    · rw [joinChunks_append_cons, length_append]
      exact hle

/-- The call, when the scanner stops at a chunk to be rewritten. -/
theorem keyexprCanonize_stopsAt (hlen : len ≤ m.length)
    (h : StopsAt (chunks (singleText m len)) P big c X status)
    (hstatus : status = .loneDollarStar ∨ status = .singleStarAfterDoubleStar ∨
      status = .doubleStarAfterDoubleStar) :
    ∃ m', Reads m' 0 (singleText m len) ∧ m'.length = m.length ∧
      keyexprCanonize m len = canonizeRewrite m' (singleText m len).length
        (stopLen (singleText m len).length (leadChunks P).length status) := by
  obtain ⟨m', hsingle, hreads, hlen', -⟩ := singleify_spec (tokensAt_memTokens hlen) hlen
  have hprefix := canonPrefix_stopsAt (m := m') h (by rw [joinChunks_chunks]; exact hreads)
    (free_chunks _)
  rw [joinChunks_chunks] at hprefix
  refine ⟨m', hreads, hlen', ?_⟩
  simp only [keyexprCanonize, hsingle]
  rw [← singleText, hprefix]
  rcases hstatus with rfl | rfl | rfl <;> rfl

theorem StopsAt.text (h : StopsAt (chunks (singleText m len)) P big c X status) :
    singleText m len = leadChunks P ++ joinChunks (c :: X) := by
  rw [← joinChunks_append_cons, ← h.split, joinChunks_chunks]

theorem StopsAt.free (h : StopsAt (chunks (singleText m len)) P big c X status) :
    ∀ d ∈ c :: X, delimiter ∉ d :=
  fun d hd ↦ free_chunks (singleText m len) d (by rw [h.split]; exact mem_append_right _ hd)

theorem reads_behind {m' t u : Bytes} (h : Reads m' 0 (t ++ u)) : Reads m' t.length u := by
  rw [reads_append_iff, Nat.zero_add] at h
  exact h.2

/-- The first chunk to be rewritten is a `$*`. -/
theorem keyexprCanonize_lone (hlen : len ≤ m.length)
    (h : StopsAt (chunks (singleText m len)) P big dollarStar X .loneDollarStar) :
    CanonizeEnds m len P ((rewriteChunks false X).map fun out ↦ starChunk :: out) := by
  obtain ⟨m', hreads, hlen', hcall⟩ := keyexprCanonize_stopsAt hlen h (Or.inl rfl)
  have htext := h.text
  have hbehind : Reads m' (leadChunks P).length (joinChunks (dollarStar :: X)) :=
    reads_behind (by rw [← htext]; exact hreads)
  refine canonizeEnds_of_rewrite hreads hlen' htext hcall ?_ (canonizeRewrite_dollarStar hbehind
    (by rw [htext, length_append]) (by rw [hlen']; exact length_singleText_le hlen)
    fun d hd ↦ h.free d (mem_cons_of_mem _ hd))
  intro out hout
  obtain ⟨out', -, rfl⟩ := map_eq_some_iff.mp hout
  simp

/-- The first chunk to be rewritten is a `*` or a `**` right behind a `**`. -/
theorem keyexprCanonize_wild (hlen : len ≤ m.length)
    (h : StopsAt (chunks (singleText m len)) (P ++ [doubleStar]) big c X status)
    (hstatus : status = .singleStarAfterDoubleStar ∨ status = .doubleStarAfterDoubleStar) :
    CanonizeEnds m len P (rewriteChunks true (c :: X)) := by
  obtain ⟨m', hreads, hlen', hcall⟩ := keyexprCanonize_stopsAt hlen h (Or.inr hstatus)
  have htext : singleText m len = leadChunks P ++ joinChunks (doubleStar :: c :: X) := by
    rw [← joinChunks_append_cons, ← joinChunks_chunks (singleText m len), h.split]
    simp
  have hstop : stopLen (singleText m len).length (leadChunks (P ++ [doubleStar])).length status =
      (leadChunks P).length := by
    have hlead : (leadChunks (P ++ [doubleStar])).length - 3 = (leadChunks P).length := by
      simp [leadChunks, doubleStar]
    rcases hstatus with rfl | rfl <;> exact hlead
  rw [hstop] at hcall
  have hbehind : Reads m' (leadChunks P).length (joinChunks (doubleStar :: c :: X)) :=
    reads_behind (by rw [← htext]; exact hreads)
  exact canonizeEnds_of_rewrite hreads hlen' htext hcall (fun out hout ↦ rewriteChunks_ne_nil hout)
    (canonizeRewrite_doubleStar hbehind (by rw [htext, length_append])
      (by rw [hlen']; exact length_singleText_le hlen) h.free)

/-- A chunk of one byte stands between the `**` and the `*` or `**`: an assertion fails. -/
theorem keyexprCanonize_aborted (hlen : len ≤ m.length) {P' : List Bytes} {d : Bytes}
    (h : StopsAt (chunks (singleText m len)) (P' ++ [d]) big c X status) (hP' : P' ≠ [])
    (hd : d.length = 1)
    (hstatus : status = .singleStarAfterDoubleStar ∨ status = .doubleStarAfterDoubleStar) :
    keyexprCanonize m len = .aborted := by
  obtain ⟨m', hreads, hlen', hcall⟩ := keyexprCanonize_stopsAt hlen h (Or.inr hstatus)
  obtain ⟨P'', e, rfl⟩ : ∃ P'' e, P' = P'' ++ [e] :=
    ⟨_, _, (dropLast_append_getLast hP').symm⟩
  have htext : singleText m len =
      (leadChunks P'' ++ e) ++ delimiter :: (d ++ delimiter :: joinChunks (c :: X)) := by
    rw [h.text]
    simp [leadChunks]
  have hstop : stopLen (singleText m len).length (leadChunks (P'' ++ [e] ++ [d])).length status =
      (leadChunks P'' ++ e).length := by
    have hlead : (leadChunks (P'' ++ [e] ++ [d])).length - 3 = (leadChunks P'' ++ e).length := by
      simp [leadChunks, hd]
      omega
    rcases hstatus with rfl | rfl <;> exact hlead
  rw [hcall, hstop]
  refine canonizeRewrite_aborted ?_ ?_
  · rw [htext]
    simp
  · have hbehind : Reads m' (leadChunks P'' ++ e).length
        (delimiter :: (d ++ delimiter :: joinChunks (c :: X))) :=
      reads_behind (by rw [← htext]; exact hreads)
    exact hbehind.1

end Ends

end ZenohPico.Keyexpr
