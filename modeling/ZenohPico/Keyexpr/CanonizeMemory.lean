import ZenohPico.Foundations.StarNormal
import ZenohPico.Keyexpr.CanonPrefix

/-!
The rewriting in place of `_z_keyexpr_canonize`, as a function of chunks. `singleify_spec` says what
`__zp_singleify` leaves in memory, `canonizeLoop_spec` what the rewriting loop does; both follow the
cursors over the buffer and keep apart what is already written from what is still to be read.
-/

namespace ZenohPico.Keyexpr

open Foundations List

/-! ### Memory -/

section Memory

variable {m m' : Bytes} {i p : ℕ} {b : UInt8} {t : Bytes}

theorem byteAt_set_self (h : i < m.length) : byteAt (m.set i b) i = b := by
  simp [byteAt, getD_eq_getElem?_getD, h]

theorem byteAt_set_ne (h : i ≠ p) : byteAt (m.set i b) p = byteAt m p := by
  simp [byteAt, getD_eq_getElem?_getD, List.getElem?_set_ne h]

theorem lt_length_of_byteAt_ne_zero (h : byteAt m p ≠ 0) : p < m.length := by
  by_contra hge
  exact h (getD_eq_default _ _ (by omega))

theorem reads_congr (h : ∀ j, p ≤ j → j < p + t.length → byteAt m' j = byteAt m j)
    (hreads : Reads m p t) : Reads m' p t := by
  induction t generalizing p with
  | nil => trivial
  | cons a t ih =>
    simp only [length_cons] at h
    refine ⟨?_, ih (fun j hj hjt ↦ h j (by omega) (by omega)) hreads.2⟩
    rw [h p le_rfl (by omega)]
    exact hreads.1

theorem readBytes_of_reads (hreads : Reads m p t) : readBytes m p t.length = t := by
  induction t generalizing p with
  | nil => rfl
  | cons a t ih => rw [length_cons, readBytes, hreads.1, ih hreads.2]

theorem reads_take {n : ℕ} (h : n ≤ m.length) : Reads m 0 (m.take n) := by
  refine reads_congr (fun j _ hj ↦ ?_) (reads_self (m.take n))
  simp only [length_take, Nat.zero_add] at hj
  simp only [byteAt, getD_eq_getElem?_getD, List.getElem?_take_of_lt (show j < n by omega)]

end Memory

/-! ### Tokens in memory -/

/-- The tokens a reader meets from `r` on: `$*` and single bytes, up to the first at or behind
`stop`. The last `$*` may have its second byte at `stop`. -/
def TokensAt (m : Bytes) (stop : ℕ) : ℕ → List (Option UInt8) → Prop
  | r, [] => stop ≤ r
  | r, none :: q => r < stop ∧ needleAt m r dollarStar = true ∧ TokensAt m stop (r + 2) q
  | r, some b :: q =>
    r < stop ∧ needleAt m r dollarStar = false ∧ byteAt m r = b ∧ TokensAt m stop (r + 1) q

variable {r : ℕ}

theorem needleAt_dollarStar {m : Bytes} :
    needleAt m r dollarStar = true ↔ byteAt m r = dsl0 ∧ byteAt m (r + 1) = star := by
  simp [needleAt, dollarStar]

theorem strStartswith_dollarStar {m : Bytes} :
    strStartswith m r dollarStar = if needleAt m r dollarStar then 2 else 0 := rfl

variable {q : List (Option UInt8)}

theorem TokensAt.congr {m m' : Bytes} {stop : ℕ} (hmem : ∀ j, r ≤ j → byteAt m' j = byteAt m j)
    (h : TokensAt m stop r q) : TokensAt m' stop r q := by
  induction q generalizing r with
  | nil => exact h
  | cons a q ih =>
    have hneedle : needleAt m' r dollarStar = needleAt m r dollarStar := by
      simp [needleAt, dollarStar, hmem r le_rfl, hmem (r + 1) (by omega)]
    cases a with
    | none => exact ⟨h.1, by rw [hneedle]; exact h.2.1, ih (fun j hj ↦ hmem j (by omega)) h.2.2⟩
    | some b =>
      refine ⟨h.1, by rw [hneedle]; exact h.2.1, ?_, ih (fun j hj ↦ hmem j (by omega)) h.2.2.2⟩
      rw [hmem r le_rfl]
      exact h.2.2.1

theorem TokensAt.reads {m : Bytes} {stop : ℕ} (h : TokensAt m stop r q) :
    Reads m r (untokenize q) := by
  induction q generalizing r with
  | nil => trivial
  | cons a q ih =>
    cases a with
    | none =>
      obtain ⟨hd, hs⟩ := needleAt_dollarStar.mp h.2.1
      exact ⟨hd, hs, ih h.2.2⟩
    | some b => exact ⟨h.2.2.1, ih h.2.2.2⟩

/-- Read a text as a pattern when the byte behind it is `next`. -/
def tokenizeBefore (next : UInt8) : Bytes → List (Option UInt8)
  | [] => []
  | [b] => if b = dsl0 ∧ next = star then [none] else [some b]
  | a :: b :: t =>
    if a = dsl0 ∧ b = star then none :: tokenizeBefore next t
    else some a :: tokenizeBefore next (b :: t)

theorem tokensAt_of_reads {m : Bytes} {stop r : ℕ} {t : Bytes} (hreads : Reads m r t)
    (hstop : stop = r + t.length) : TokensAt m stop r (tokenizeBefore (byteAt m stop) t) := by
  match t with
  | [] => simpa [tokenizeBefore, TokensAt] using hstop.le
  | [b] =>
    simp only [length_singleton] at hstop
    rw [tokenizeBefore]
    split_ifs with h
    · refine ⟨by omega, needleAt_dollarStar.mpr ?_, ?_⟩
      · rw [hreads.1, ← hstop]
        exact h
      · simp only [TokensAt]
        omega
    · refine ⟨by omega, ?_, hreads.1, hstop.le⟩
      rw [Bool.eq_false_iff, ne_eq, needleAt_dollarStar, hreads.1, ← hstop]
      exact h
  | a :: b :: t =>
    simp only [length_cons] at hstop
    obtain ⟨ha, hb, ht⟩ := hreads
    rw [tokenizeBefore]
    split_ifs with h
    · refine ⟨by omega, needleAt_dollarStar.mpr ?_, tokensAt_of_reads ht (by omega)⟩
      rw [ha, hb]
      exact h
    · refine ⟨by omega, ?_, ha, tokensAt_of_reads (t := b :: t) ⟨hb, ht⟩ (by simp; omega)⟩
      rw [Bool.eq_false_iff, ne_eq, needleAt_dollarStar, ha, hb]
      exact h

/-! ### Removing repetitions -/

/-- The first loop stops in front of the first repetition. -/
theorem singleifyFind_spec {m : Bytes} {stop r : ℕ} {q : List (Option UInt8)} {behind : Bool}
    (h : TokensAt m stop r q) : ∃ q₁ q₂ behind', q = q₁ ++ q₂ ∧
      singleifyFind m stop dollarStar r behind = (r + (untokenize q₁).length, behind') ∧
      TokensAt m stop (r + (untokenize q₁).length) q₂ ∧
      collapse behind q = q₁ ++ collapse behind' q₂ ∧ (collapse behind q = q → q₂ = []) := by
  induction q generalizing r behind with
  | nil =>
    refine ⟨[], [], behind, rfl, ?_, h, by cases behind <;> rfl, fun _ ↦ rfl⟩
    rw [singleifyFind, if_neg (by simpa [TokensAt] using h)]
    rfl
  | cons a q ih =>
    cases a with
    | none =>
      obtain ⟨hlt, hneedle, hrest⟩ := h
      have hstart : strStartswith m r dollarStar = 2 := by
        rw [strStartswith_dollarStar, if_pos hneedle]
      cases behind with
      | true =>
        refine ⟨[], none :: q, true, rfl, ?_, ⟨hlt, hneedle, hrest⟩, rfl, fun hself ↦ ?_⟩
        · rw [singleifyFind, if_pos hlt, hstart]
          rfl
        · -- a repetition is dropped, so something is lost
          have hlen := length_collapse_le true q
          rw [collapse] at hself
          rw [hself, length_cons] at hlen
          omega
      | false =>
        obtain ⟨q₁, q₂, behind', rfl, hfind, htok, hcol, hself⟩ := @ih (r + 2) true hrest
        have hlen : r + (untokenize (none :: q₁)).length = r + 2 + (untokenize q₁).length := by
          simp only [untokenize, length_cons]
          omega
        refine ⟨none :: q₁, q₂, behind', rfl, ?_, ?_, ?_, fun h ↦ hself ?_⟩
        · rw [singleifyFind, if_pos hlt, hstart, hlen, ← hfind]
          rfl
        · rw [hlen]
          exact htok
        · rw [collapse, hcol, cons_append]
        · rw [collapse] at h
          exact tail_eq_of_cons_eq h
    | some b =>
      obtain ⟨hlt, hneedle, hb, hrest⟩ := h
      have hstart : strStartswith m r dollarStar = 0 := by
        rw [strStartswith_dollarStar, hneedle]
        rfl
      obtain ⟨q₁, q₂, behind', rfl, hfind, htok, hcol, hself⟩ := @ih (r + 1) false hrest
      have hlen : r + (untokenize (some b :: q₁)).length = r + 1 + (untokenize q₁).length := by
        simp only [untokenize, length_cons]
        omega
      refine ⟨some b :: q₁, q₂, behind', rfl, ?_, ?_, ?_, fun h ↦ hself ?_⟩
      · rw [singleifyFind, if_pos hlt, if_neg (by rw [hstart]; simp), hlen, ← hfind]
      · rw [hlen]
        exact htok
      · rw [collapse_some, hcol, cons_append]
      · rw [collapse_some] at h
        exact tail_eq_of_cons_eq h

/-- What a function that writes up to the cursor leaves alone. -/
structure WritesFrom (m m' : Bytes) (writer : ℕ) (t : Bytes) : Prop where
  reads : Reads m' writer t
  below : ∀ i < writer, byteAt m' i = byteAt m i
  length : m'.length = m.length

theorem WritesFrom.cons {m m' : Bytes} {w : ℕ} {b : UInt8} {t : Bytes} (hw : w < m.length)
    (h : WritesFrom (m.set w b) m' (w + 1) t) : WritesFrom m m' w (b :: t) := by
  refine ⟨⟨?_, h.reads⟩, fun i hi ↦ ?_, by rw [h.length, length_set]⟩
  · rw [h.below w (by omega), byteAt_set_self hw]
  · rw [h.below i (by omega), byteAt_set_ne (by omega)]

/-- The second loop writes the tokens without the repetitions. -/
theorem singleifyWrite_spec {m : Bytes} {stop r w : ℕ} {q : List (Option UInt8)} {behind : Bool}
    (h : TokensAt m stop r q) (hw : w ≤ r) (hstop : stop ≤ m.length) :
    ∃ m', singleifyWrite m stop dollarStar r w behind =
        (m', w + (untokenize (collapse behind q)).length) ∧
      WritesFrom m m' w (untokenize (collapse behind q)) := by
  induction q generalizing m r w behind with
  | nil =>
    refine ⟨m, ?_, ?_⟩
    · rw [singleifyWrite, if_neg (by simpa [TokensAt] using h)]
      cases behind <;> rfl
    · cases behind <;> exact ⟨trivial, fun _ _ ↦ rfl, rfl⟩
  | cons a q ih =>
    cases a with
    | none =>
      obtain ⟨hlt, hneedle, hrest⟩ := h
      obtain ⟨hd, hs⟩ := needleAt_dollarStar.mp hneedle
      have hstart : strStartswith m r dollarStar = 2 := by
        rw [strStartswith_dollarStar, if_pos hneedle]
      cases behind with
      | true =>
        obtain ⟨m', hwrite, hspec⟩ := @ih m (r + 2) w true hrest (by omega) hstop
        refine ⟨m', ?_, hspec⟩
        rw [singleifyWrite, if_pos hlt, hstart]
        exact hwrite
      | false =>
        have hr1 : r + 1 < m.length := lt_length_of_byteAt_ne_zero (by rw [hs]; decide)
        have hcopy : copyBytes m w r 2 = (m.set w dsl0).set (w + 1) star := by
          rw [copyBytes, copyBytes, copyBytes, hd, byteAt_set_ne (by omega), hs]
        have hframe : ∀ j, r + 2 ≤ j → byteAt ((m.set w dsl0).set (w + 1) star) j = byteAt m j := by
          intro j hj
          rw [byteAt_set_ne (by omega), byteAt_set_ne (by omega)]
        obtain ⟨m', hwrite, hspec⟩ := @ih ((m.set w dsl0).set (w + 1) star) (r + 2) (w + 2) true
          (hrest.congr hframe) (by omega) (by simpa using hstop)
        refine ⟨m', ?_, (hspec.cons (by rw [length_set]; omega)).cons (by omega)⟩
        rw [singleifyWrite, if_pos hlt, hstart, hcopy, if_pos (by decide), if_neg (by decide), hwrite,
          collapse, untokenize, length_cons, length_cons]
        simp only [Prod.mk.injEq, true_and]
        omega
    | some b =>
      obtain ⟨hlt, hneedle, hb, hrest⟩ := h
      have hstart : strStartswith m r dollarStar = 0 := by
        rw [strStartswith_dollarStar, hneedle]
        rfl
      obtain ⟨m', hwrite, hspec⟩ := @ih (m.set w b) (r + 1) (w + 1) false
        (hrest.congr fun j hj ↦ byteAt_set_ne (by omega)) (by omega) (by simpa using hstop)
      rw [collapse_some]
      refine ⟨m', ?_, hspec.cons (by omega)⟩
      rw [singleifyWrite, if_pos hlt, if_neg (by rw [hstart]; simp), hb, hwrite, untokenize,
        length_cons]
      simp only [Prod.mk.injEq, true_and]
      omega

/-- `__zp_singleify` leaves the tokens it meets in memory, without the repetitions; where there are
none, it leaves the memory as it is. -/
theorem singleify_spec {m : Bytes} {len : ℕ} (h : TokensAt m len 0 q) (hlen : len ≤ m.length) :
    ∃ m', singleify m len dollarStar = (m', (untokenize (collapse false q)).length) ∧
      Reads m' 0 (untokenize (collapse false q)) ∧ m'.length = m.length ∧ (Reduced q → m' = m) := by
  obtain ⟨q₁, q₂, behind, hsplit, hfind, htok, hcol, hself⟩ := @singleifyFind_spec m len 0 q false h
  obtain ⟨m', hwrite, hspec⟩ := @singleifyWrite_spec m len _ _ q₂ behind htok le_rfl hlen
  have hreads : Reads m 0 (untokenize q₁) := by
    have hall := h.reads
    rw [hsplit, untokenize_append, reads_append_iff] at hall
    exact hall.1
  refine ⟨m', ?_, ?_, hspec.length, fun hred ↦ ?_⟩
  · simp only [singleify, hfind, hwrite, hcol, untokenize_append, length_append]
    simp
  · rw [hcol, untokenize_append, reads_append_iff]
    refine ⟨reads_congr (fun j _ hj ↦ hspec.below j (by omega)) hreads, hspec.reads⟩
  · have hnil := hself (collapse_eq_self.1 hred)
    subst hnil
    rw [singleifyWrite, if_neg (by simpa [TokensAt] using htok)] at hwrite
    exact (Prod.mk.inj hwrite).1.symm

/-! ### Writing chunks -/

/-- Some chunks with a `/` in front of each. -/
def tailText (cs : List Bytes) : Bytes := cs.flatMap fun c ↦ delimiter :: c

theorem tailText_cons (c : Bytes) (cs : List Bytes) :
    tailText (c :: cs) = delimiter :: (c ++ tailText cs) := by
  simp [tailText]

theorem joinChunks_eq (c : Bytes) (cs : List Bytes) : joinChunks (c :: cs) = c ++ tailText cs := by
  induction cs generalizing c with
  | nil => simp [joinChunks_singleton, tailText]
  | cons d cs ih => rw [joinChunks_cons c (by simp), ih, tailText_cons]

theorem joinChunks_concat {out : List Bytes} (hout : out ≠ []) (c : Bytes) :
    joinChunks (out ++ [c]) = joinChunks out ++ delimiter :: c := by
  obtain ⟨d, out, rfl⟩ := exists_cons_of_ne_nil hout
  simp [joinChunks_eq, tailText]

theorem joinChunks_ne_nil {out : List Bytes} (hout : out ≠ []) (hne : ∀ c ∈ out, c ≠ []) :
    joinChunks out ≠ [] := by
  obtain ⟨d, out, rfl⟩ := exists_cons_of_ne_nil hout
  rw [joinChunks_eq]
  simp [hne d (by simp)]

/-- What stands in memory after a text was written at `p`. -/
structure WrittenAt (m m' : Bytes) (p : ℕ) (t : Bytes) : Prop where
  reads : Reads m' p t
  below : ∀ i < p, byteAt m' i = byteAt m i
  above : ∀ j, p + t.length ≤ j → byteAt m' j = byteAt m j
  length : m'.length = m.length

theorem writtenAt_writeBytes {m : Bytes} {p : ℕ} {t : Bytes} (h : p + t.length ≤ m.length) :
    WrittenAt m (writeBytes m p t) p t := by
  induction t generalizing m p with
  | nil => exact ⟨trivial, fun _ _ ↦ rfl, fun _ _ ↦ rfl, rfl⟩
  | cons a t ih =>
    simp only [length_cons] at h
    have hrest := @ih (m.set p a) (p + 1) (by rw [length_set]; omega)
    refine ⟨⟨?_, hrest.reads⟩, fun i hi ↦ ?_, fun j hj ↦ ?_, ?_⟩
    · rw [writeBytes, hrest.below p (by omega), byteAt_set_self (by omega)]
    · rw [writeBytes, hrest.below i (by omega), byteAt_set_ne (by omega)]
    · simp only [length_cons] at hj
      rw [writeBytes, hrest.above j (by omega), byteAt_set_ne (by omega)]
    · rw [writeBytes, hrest.length, length_set]

theorem WrittenAt.append {m m' m'' : Bytes} {p : ℕ} {t u : Bytes} (h : WrittenAt m m' p t)
    (h' : WrittenAt m' m'' (p + t.length) u) : WrittenAt m m'' p (t ++ u) := by
  refine ⟨reads_append_iff.mpr ⟨reads_congr (fun j _ hj ↦ h'.below j (by omega)) h.reads, h'.reads⟩,
    fun i hi ↦ ?_, fun j hj ↦ ?_, by rw [h'.length, h.length]⟩
  · rw [h'.below i (by omega), h.below i hi]
  · rw [length_append] at hj
    rw [h'.above j (by omega), h.above j (by omega)]

variable {chunk : Bytes → Bytes}

/-- `__zp_ke_write_chunk` adds a chunk to those already written. The chunk may depend on the memory
above the writer. -/
theorem keWriteChunk_spec {m₀ m : Bytes} {ws w : ℕ} {out : List Bytes} {c : Bytes}
    (hout : WrittenAt m₀ m ws (joinChunks out)) (hne : ∀ d ∈ out, d ≠ [])
    (hw : w = ws + (joinChunks out).length)
    (hchunk : ∀ m', (∀ j, w < j → byteAt m' j = byteAt m j) → chunk m' = c)
    (hroom : ws + (joinChunks (out ++ [c])).length ≤ m.length) :
    ∃ m', keWriteChunk m w chunk ws = (m', ws + (joinChunks (out ++ [c])).length) ∧
      WrittenAt m₀ m' ws (joinChunks (out ++ [c])) := by
  rcases eq_or_ne out [] with rfl | hnil
  · have hw' : w = ws := by simpa [joinChunks] using hw
    have hc := hchunk m fun _ _ ↦ rfl
    rw [nil_append, joinChunks_singleton] at hroom ⊢
    refine ⟨writeBytes m ws c, ?_, ?_⟩
    · simp [keWriteChunk, hw', hc]
    · exact hout.append (by simpa [joinChunks] using writtenAt_writeBytes hroom)
  · have hw' : w ≠ ws := by
      have hpos := length_pos_of_ne_nil (joinChunks_ne_nil hnil hne)
      omega
    have hc := hchunk (m.set w delimiter) fun j hj ↦ byteAt_set_ne (by omega)
    rw [joinChunks_concat hnil, length_append, ← Nat.add_assoc, ← hw] at hroom
    rw [joinChunks_concat hnil, length_append, ← Nat.add_assoc, ← hw]
    refine ⟨writeBytes m w (delimiter :: c), ?_, ?_⟩
    · simp only [keWriteChunk, if_pos hw', hc, writeBytes, length_cons, Prod.mk.injEq, true_and]
      omega
    · exact hout.append (by rw [← hw]; exact writtenAt_writeBytes hroom)

theorem memchr_first {m : Bytes} {len ws : ℕ} {c : Bytes} {cs : List Bytes}
    (hreads : Reads m ws (joinChunks (c :: cs)))
    (hlen : len = ws + (joinChunks (c :: cs)).length) (hfree : delimiter ∉ c) :
    memchr m delimiter ws (len - ws) = if cs = [] then none else some (ws + c.length) := by
  rw [joinChunks_eq] at hreads hlen
  rw [length_append] at hlen
  split_ifs with hcs
  · subst hcs
    simp only [tailText, flatMap_nil, append_nil, length_nil] at hreads hlen
    exact memchr_eq_none_of_reads hreads (by omega) hfree
  · obtain ⟨d, cs, rfl⟩ := exists_cons_of_ne_nil hcs
    rw [tailText_cons] at hreads hlen
    rw [append_cons, reads_append_iff] at hreads
    rw [length_cons] at hlen
    exact memchr_eq_some_of_reads hreads.1 (by omega) hfree

/-! ### The rewriting loop on chunks -/

/-- The chunk `**`, if it is pending. -/
def pendingChunks (inBigWild : Bool) : List Bytes := if inBigWild then [doubleStar] else []

/-- The rewriting loop on chunks: what is written for them, or nothing in case of an error. -/
def rewriteChunks : Bool → List Bytes → Option (List Bytes)
  | inBigWild, [] => some (pendingChunks inBigWild)
  | inBigWild, c :: cs =>
    if c = starChunk ∨ c = dollarStar then
      (rewriteChunks inBigWild cs).map fun out ↦ starChunk :: out
    else if c = doubleStar then rewriteChunks true cs
    else if c ≠ [] ∧ textStatus (c ++ tailText cs) = .success then
      (rewriteChunks false cs).map fun out ↦ pendingChunks inBigWild ++ c :: out
    else none

/-- The chunks `out` are written from `ws` on, and nothing else is. -/
structure HasWritten (m : Bytes) (ws : ℕ) (st : CanonState) (out : List Bytes) : Prop where
  written : WrittenAt m st.mem ws (joinChunks out)
  writer : st.writer = ws + (joinChunks out).length
  ne_nil : ∀ c ∈ out, c ≠ []

theorem HasWritten.slash {m : Bytes} {ws : ℕ} {st : CanonState} {out : List Bytes}
    (h : HasWritten m ws st out) (nextSlash : Option ℕ) :
    HasWritten m ws { st with nextSlash } out :=
  ⟨h.written, h.writer, h.ne_nil⟩

theorem HasWritten.write {m : Bytes} {ws : ℕ} {st : CanonState} {out : List Bytes} {c : Bytes}
    (h : HasWritten m ws st out) (hc : c ≠ [])
    (hchunk : ∀ m', (∀ j, st.writer < j → byteAt m' j = byteAt st.mem j) → chunk m' = c)
    (hroom : ws + (joinChunks (out ++ [c])).length ≤ m.length) :
    HasWritten m ws (st.write chunk ws) (out ++ [c]) := by
  obtain ⟨m', hwrite, hwritten⟩ := keWriteChunk_spec h.written h.ne_nil h.writer hchunk
    (by rw [h.written.length]; exact hroom)
  refine ⟨?_, ?_, ?_⟩
  · simp only [CanonState.write, hwrite]
    exact hwritten
  · simp only [CanonState.write, hwrite]
  · intro d hd
    rcases mem_append.mp hd with hd | hd
    · exact h.ne_nil d hd
    · rw [mem_singleton.mp hd]
      exact hc

theorem HasWritten.writePending {m : Bytes} {ws : ℕ} {st : CanonState} {out : List Bytes}
    (h : HasWritten m ws st out)
    (hroom : ws + (joinChunks (out ++ pendingChunks st.inBigWild)).length ≤ m.length) :
    HasWritten m ws (st.writePending ws) (out ++ pendingChunks st.inBigWild) := by
  rw [CanonState.writePending]
  split_ifs with hbig
  · rw [pendingChunks, if_pos hbig] at hroom ⊢
    exact h.write (by decide) (fun _ _ ↦ rfl) hroom
  · rw [pendingChunks, if_neg hbig, append_nil]
    exact h

/-- A state of the loop: `out` is written from `ws` on, with room for a pending `**`, and `rest` is
still to be read, with the `/` in front of it at `e`. -/
structure Rewriting (m : Bytes) (stop ws e : ℕ) (st : CanonState) (out rest : List Bytes) :
    Prop where
  written : HasWritten m ws st out
  room : ws + (joinChunks (out ++ pendingChunks st.inBigWild)).length ≤ e
  reads : Reads m e (tailText rest)
  stop_eq : stop = e + (tailText rest).length
  stop_le : stop ≤ m.length
  nextSlash : st.nextSlash = if rest = [] then none else some e
  free : ∀ c ∈ rest, delimiter ∉ c
  ret : st.ret = .success

theorem length_joinChunks_append_le {out out' : List Bytes} :
    (joinChunks out).length ≤ (joinChunks (out ++ out')).length := by
  cases out with
  | nil => simp [joinChunks]
  | cons c out =>
    rw [cons_append, joinChunks_eq, joinChunks_eq]
    simp only [tailText, flatMap_append, length_append]
    omega

section Rewriting

variable {m : Bytes} {stop ws e : ℕ} {st : CanonState} {out rest cs : List Bytes} {c : Bytes}

theorem Rewriting.writer_le (h : Rewriting m stop ws e st out rest) : st.writer ≤ e := by
  rw [h.written.writer]
  exact (Nat.add_le_add_left length_joinChunks_append_le _).trans h.room

theorem Rewriting.reads_mem (h : Rewriting m stop ws e st out (c :: cs)) :
    Reads st.mem (e + 1) (c ++ tailText cs) := by
  have hreads := h.reads
  rw [tailText_cons] at hreads
  have hle := h.writer_le
  rw [h.written.writer] at hle
  exact reads_congr (fun j hj _ ↦ h.written.written.above j (by omega)) hreads.2

theorem Rewriting.chunkAt (h : Rewriting m stop ws e st out (c :: cs)) :
    ChunkAt st.mem (e + 1) stop c := by
  have hreads := h.reads_mem
  have hstop := h.stop_eq
  rw [tailText_cons, length_cons, length_append] at hstop
  rw [← joinChunks_eq] at hreads
  refine chunkAt_of_reads hreads ?_ (h.free c (by simp))
  rw [joinChunks_eq, length_append]
  omega

theorem Rewriting.memchr_eq (h : Rewriting m stop ws e st out (c :: cs)) :
    memchr st.mem delimiter (e + 1) (stop - (e + 1)) =
      if cs = [] then none else some (e + 1 + c.length) := by
  have hreads := h.reads_mem
  have hstop := h.stop_eq
  rw [tailText_cons, ← joinChunks_eq, length_cons] at hstop
  rw [← joinChunks_eq] at hreads
  exact memchr_first hreads (by omega) (h.free c (by simp))

/-- The pass of the loop at a chunk. -/
theorem Rewriting.canonizePass_eq (h : Rewriting m stop ws e st out (c :: cs)) :
    canonizePass stop ws st e =
      let st := { st with nextSlash := if cs = [] then none else some (e + 1 + c.length) }
      if c = starChunk ∨ c = dollarStar then st.write (fun _ ↦ starChunk) ws
      else if c = doubleStar then { st with inBigWild := true }
      else if c ≠ [] ∧ textStatus (c ++ tailText cs) = .success then
        { (st.writePending ws).write (fun m ↦ readBytes m (e + 1) c.length) ws with
          inBigWild := false, ret := .success }
      else { st with ret := if c = [] then .emptyChunk else textStatus (c ++ tailText cs) } := by
  have hchunk := h.chunkAt
  have hlen : (if cs = [] then none else some (e + 1 + c.length)).getD stop - (e + 1) =
      c.length := by
    have hend := hchunk.chunkEnd_eq
    rw [chunkEnd, h.memchr_eq] at hend
    omega
  have hscan : scanStatus st.mem (e + 1) stop = textStatus (c ++ tailText cs) := by
    refine scanStatus_of_reads h.reads_mem ?_
    have hstop := h.stop_eq
    rw [tailText_cons, length_cons] at hstop
    omega
  simp only [canonizePass, h.memchr_eq, hlen, hscan, single_iff_of_reads hchunk.reads,
    pair_iff_of_reads hchunk.reads, h.ret, starChunk, dollarStar, doubleStar]
  by_cases hstar : c = [star]
  · simp [hstar]
  by_cases hdollar : c = [dsl0, star]
  · simp [hdollar]
  by_cases hdouble : c = [star, star]
  · simp [hdouble]
  by_cases hnil : c = []
  · simp [hnil]
  · have hpos : c.length ≠ 0 := by simpa using hnil
    simp only [hstar, hdollar, hdouble, hnil, hpos, if_false, or_self, ne_eq, not_false_eq_true,
      true_and, if_true]
    by_cases hst : textStatus (c ++ tailText cs) = .success
    · simp [hst]
    · simp [hst]

/-- What is left to be read behind a chunk. -/
theorem Rewriting.reads_rest (h : Rewriting m stop ws e st out (c :: cs)) :
    Reads m (e + 1 + c.length) (tailText cs) ∧ stop = e + 1 + c.length + (tailText cs).length := by
  have hreads := h.reads
  have hstop := h.stop_eq
  rw [tailText_cons] at hreads hstop
  rw [length_cons, length_append] at hstop
  exact ⟨(reads_append_iff.mp hreads.2).2, by omega⟩

theorem Rewriting.next (h : Rewriting m stop ws e st out (c :: cs)) {st' : CanonState}
    {out' : List Bytes} (hwritten : HasWritten m ws st' out')
    (hroom : ws + (joinChunks (out' ++ pendingChunks st'.inBigWild)).length ≤ e + 1 + c.length)
    (hslash : st'.nextSlash = if cs = [] then none else some (e + 1 + c.length))
    (hret : st'.ret = .success) : Rewriting m stop ws (e + 1 + c.length) st' out' cs :=
  ⟨hwritten, hroom, h.reads_rest.1, h.reads_rest.2, h.stop_le, hslash,
    fun d hd ↦ h.free d (mem_cons_of_mem _ hd), hret⟩

theorem length_joinChunks_star (out : List Bytes) (inBigWild : Bool) :
    (joinChunks (out ++ [starChunk] ++ pendingChunks inBigWild)).length ≤
      (joinChunks (out ++ pendingChunks inBigWild)).length + 2 := by
  cases out with
  | nil => cases inBigWild <;> simp [pendingChunks, starChunk, doubleStar, joinChunks]
  | cons c out =>
    cases inBigWild <;> simp [pendingChunks, starChunk, doubleStar, joinChunks_eq, tailText] <;> omega

/-- A `*` or a `$*` is written as `*`, in front of a `**` that is pending. -/
theorem Rewriting.pass_star (h : Rewriting m stop ws e st out (c :: cs))
    (hc : c = starChunk ∨ c = dollarStar) :
    Rewriting m stop ws (e + 1 + c.length) (canonizePass stop ws st e) (out ++ [starChunk]) cs ∧
      (canonizePass stop ws st e).inBigWild = st.inBigWild := by
  have hlen : 1 ≤ c.length := by
    rcases hc with rfl | rfl <;> decide
  have hroom := h.room
  have hstar := length_joinChunks_star out st.inBigWild
  have hrest := h.reads_rest.2
  have hstop := h.stop_le
  have hprefix : (joinChunks (out ++ [starChunk])).length ≤
      (joinChunks (out ++ [starChunk] ++ pendingChunks st.inBigWild)).length :=
    length_joinChunks_append_le
  rw [h.canonizePass_eq]
  simp only [if_pos hc]
  refine ⟨h.next ?_ ?_ rfl h.ret, rfl⟩
  · exact (h.written.slash _).write (by decide) (fun _ _ ↦ rfl) (by omega)
  · simp only [CanonState.write]
    omega

/-- A `**` is remembered. -/
theorem Rewriting.pass_doubleStar (h : Rewriting m stop ws e st out (doubleStar :: cs)) :
    Rewriting m stop ws (e + 1 + doubleStar.length) (canonizePass stop ws st e) out cs ∧
      (canonizePass stop ws st e).inBigWild = true := by
  have hroom : (joinChunks (out ++ [doubleStar])).length ≤ (joinChunks out).length + 3 := by
    rcases eq_or_ne out [] with rfl | hout
    · simp [joinChunks, doubleStar]
    · rw [joinChunks_concat hout]
      simp [doubleStar]
  have hle := h.writer_le
  rw [h.written.writer] at hle
  rw [h.canonizePass_eq]
  simp only [if_neg (show ¬ (doubleStar = starChunk ∨ doubleStar = dollarStar) by decide), if_true]
  refine ⟨h.next ⟨h.written.written, h.written.writer, h.written.ne_nil⟩ ?_ rfl h.ret, trivial⟩
  simp only [pendingChunks, if_true]
  simp only [doubleStar, length_cons, length_nil] at hroom ⊢
  omega

/-- Any other chunk is moved down, behind the `**` that is pending. -/
theorem Rewriting.pass_plain (h : Rewriting m stop ws e st out (c :: cs))
    (hc : ¬ (c = starChunk ∨ c = dollarStar)) (hc' : c ≠ doubleStar)
    (hok : c ≠ [] ∧ textStatus (c ++ tailText cs) = .success) :
    Rewriting m stop ws (e + 1 + c.length) (canonizePass stop ws st e)
        (out ++ pendingChunks st.inBigWild ++ [c]) cs ∧
      (canonizePass stop ws st e).inBigWild = false := by
  have hroom := h.room
  have hrest := h.reads_rest.2
  have hstop := h.stop_le
  have hlen : (joinChunks (out ++ pendingChunks st.inBigWild ++ [c])).length ≤
      (joinChunks (out ++ pendingChunks st.inBigWild)).length + 1 + c.length := by
    rcases eq_or_ne (out ++ pendingChunks st.inBigWild) [] with hnil | hout
    · rw [hnil, nil_append, joinChunks_singleton]
      omega
    · rw [joinChunks_concat hout, length_append, length_cons]
      omega
  rw [h.canonizePass_eq]
  simp only [if_neg hc, if_neg hc', if_pos hok]
  have hpending := (h.written.slash (if cs = [] then none else some (e + 1 + c.length))).writePending
    (by simp only; omega)
  have hregion : ∀ m', (∀ j, (CanonState.writePending { st with
      nextSlash := if cs = [] then none else some (e + 1 + c.length) } ws).writer < j →
      byteAt m' j = byteAt (CanonState.writePending { st with
        nextSlash := if cs = [] then none else some (e + 1 + c.length) } ws).mem j) →
      readBytes m' (e + 1) c.length = c := by
    intro m' hm'
    have hreads := h.reads
    rw [tailText_cons] at hreads
    refine readBytes_of_reads (reads_congr (fun j hj _ ↦ ?_) (reads_append_iff.mp hreads.2).1)
    rw [hm' j (by rw [hpending.writer]; simp only; omega),
      hpending.written.above j (by simp only; omega)]
  refine ⟨h.next ?_ ?_ ?_ rfl, trivial⟩
  · have hwrite := hpending.write hok.1 hregion (by simp only; omega)
    exact ⟨hwrite.written, hwrite.writer, hwrite.ne_nil⟩
  · simp only [pendingChunks, Bool.false_eq_true, if_false, append_nil]
    simp only [pendingChunks] at hlen hroom
    omega
  · simp only [CanonState.write_nextSlash, CanonState.writePending_nextSlash]

/-- Anything else is an error. -/
theorem Rewriting.pass_error (h : Rewriting m stop ws e st out (c :: cs))
    (hc : ¬ (c = starChunk ∨ c = dollarStar)) (hc' : c ≠ doubleStar)
    (hbad : ¬ (c ≠ [] ∧ textStatus (c ++ tailText cs) = .success)) :
    (canonizePass stop ws st e).ret ≠ .success := by
  rw [h.canonizePass_eq]
  simp only [if_neg hc, if_neg hc', if_neg hbad]
  by_cases hnil : c = []
  · simp [hnil]
  · rw [if_neg hnil]
    exact fun hst ↦ hbad ⟨hnil, hst⟩

/-- An error is not forgotten. -/
theorem canonizePass_ret_ne {slash : ℕ} (h : st.ret ≠ .success) :
    (canonizePass stop ws st slash).ret ≠ .success := by
  simp only [canonizePass]
  split_ifs <;> simp_all [CanonState.write]

theorem canonizeLoop_ret_ne (h : st.ret ≠ .success) : (canonizeLoop stop ws st).ret ≠ .success := by
  induction st using canonizeLoop.induct stop ws with
  | case1 st hslash =>
    rw [canonizeLoop, hslash]
    exact h
  | case2 st slash hslash ih =>
    rw [canonizeLoop, hslash]
    exact ih (canonizePass_ret_ne h)

theorem canonizeFrom_step {slash : ℕ} (h : st.nextSlash = some slash) :
    canonizeFrom stop ws st = canonizeFrom stop ws (canonizePass stop ws st slash) := by
  rw [canonizeFrom, canonizeFrom, canonizeLoop, h]

/-- How the rewriting ends: with the chunks of `rewriteChunks` written behind those already there, or
with an error. -/
def RewriteEnds (m : Bytes) (stop ws : ℕ) (outcome : CanonOutcome) : Option (List Bytes) → Prop
  | some out => ∃ m', outcome = .returned .success m' (ws + (joinChunks out).length) ∧
      WrittenAt m m' ws (joinChunks out) ∧ ws + (joinChunks out).length ≤ stop ∧ ∀ c ∈ out, c ≠ []
  | none => ∃ status m', outcome = .returned status m' stop ∧ status ≠ .success

/-- The rewriting loop, from any of its states. -/
theorem canonizeFrom_spec (h : Rewriting m stop ws e st out rest) :
    RewriteEnds m stop ws (canonizeFrom stop ws st)
      ((rewriteChunks st.inBigWild rest).map fun out' ↦ out ++ out') := by
  induction rest generalizing e st out with
  | nil =>
    have hslash := h.nextSlash
    rw [if_pos rfl] at hslash
    have hstop := h.stop_eq
    simp only [tailText, flatMap_nil, length_nil, Nat.add_zero] at hstop
    have hroom := h.room
    have hle := h.stop_le
    have hpending := h.written.writePending (by omega)
    refine ⟨(st.writePending ws).mem, ?_, hpending.written, hroom.trans hstop.ge, hpending.ne_nil⟩
    rw [canonizeFrom, canonizeLoop, hslash]
    simp only [h.ret, if_true, hpending.writer]
  | cons c cs ih =>
    have hslash := h.nextSlash
    rw [if_neg (by simp)] at hslash
    rw [canonizeFrom_step hslash, rewriteChunks]
    split_ifs with hstar hdouble hok
    · obtain ⟨hnext, hbig⟩ := h.pass_star hstar
      have hrest := ih hnext
      rw [hbig] at hrest
      rw [Option.map_map]
      simpa [Function.comp_def] using hrest
    · subst hdouble
      obtain ⟨hnext, hbig⟩ := h.pass_doubleStar
      have hrest := ih hnext
      rw [hbig] at hrest
      exact hrest
    · obtain ⟨hnext, hbig⟩ := h.pass_plain hstar hdouble hok
      have hrest := ih hnext
      rw [hbig] at hrest
      rw [Option.map_map]
      simpa [Function.comp_def] using hrest
    · have hret : (canonizeLoop stop ws (canonizePass stop ws st e)).ret ≠ .success :=
        canonizeLoop_ret_ne (h.pass_error hstar hdouble hok)
      refine ⟨_, (canonizeLoop stop ws (canonizePass stop ws st e)).mem, ?_, hret⟩
      simp only [canonizeFrom, if_neg hret]

end Rewriting

/-! ### From the end of the canonical prefix on -/

section Rewrite

variable {m : Bytes} {len ws : ℕ} {cs : List Bytes}

theorem canonizeRewrite_aborted (hws : ws < len) (hdel : byteAt m ws = delimiter) :
    canonizeRewrite m len ws = .aborted := by
  have hchr : memchr m delimiter ws (len - ws) = some ws := by
    obtain ⟨n, hn⟩ : ∃ n, len - ws = n + 1 := ⟨len - ws - 1, by omega⟩
    rw [hn, memchr, if_pos hdel]
  simp [canonizeRewrite, hchr]

theorem chunkLen_first {c : Bytes} (hreads : Reads m ws (joinChunks (c :: cs)))
    (hlen : len = ws + (joinChunks (c :: cs)).length) (hfree : delimiter ∉ c) :
    (memchr m delimiter ws (len - ws)).getD len - ws = c.length := by
  have hend := (chunkAt_of_reads hreads hlen hfree).chunkEnd_eq
  rw [chunkEnd] at hend
  omega

/-- The state the rewriting starts in. -/
theorem rewriting_start {c : Bytes} {st : CanonState} {out : List Bytes}
    (hreads : Reads m ws (joinChunks (c :: cs)))
    (hlen : len = ws + (joinChunks (c :: cs)).length) (hle : len ≤ m.length)
    (hfree : ∀ d ∈ cs, delimiter ∉ d) (hwritten : HasWritten m ws st out)
    (hroom : (joinChunks (out ++ pendingChunks st.inBigWild)).length ≤ c.length)
    (hslash : st.nextSlash = if cs = [] then none else some (ws + c.length))
    (hret : st.ret = .success) : Rewriting m len ws (ws + c.length) st out cs := by
  rw [joinChunks_eq] at hreads hlen
  rw [length_append] at hlen
  exact ⟨hwritten, by omega, (reads_append_iff.mp hreads).2, by omega, hle, hslash, hfree, hret⟩

theorem hasWritten_nil {st : CanonState} (hmem : st.mem = m) (hwriter : st.writer = ws) :
    HasWritten m ws st [] := by
  refine ⟨⟨trivial, fun _ _ ↦ by rw [hmem], fun _ _ ↦ by rw [hmem], by rw [hmem]⟩, ?_, by simp⟩
  simp [hwriter, joinChunks]

/-- From a `**` on. -/
theorem canonizeRewrite_doubleStar (hreads : Reads m ws (joinChunks (doubleStar :: cs)))
    (hlen : len = ws + (joinChunks (doubleStar :: cs)).length) (hle : len ≤ m.length)
    (hfree : ∀ d ∈ cs, delimiter ∉ d) :
    RewriteEnds m len ws (canonizeRewrite m len ws) (rewriteChunks true cs) := by
  have hchr := memchr_first hreads hlen (by decide)
  have hbytes : byteAt m ws = star ∧ byteAt m (ws + 1) = star := by
    rw [joinChunks_eq] at hreads
    exact ⟨hreads.1, hreads.2.1⟩
  have hstart : Rewriting m len ws (ws + doubleStar.length)
      { mem := m, nextSlash := memchr m delimiter ws (len - ws), writer := ws, inBigWild := true,
        ret := .success } [] cs :=
    rewriting_start hreads hlen hle hfree (hasWritten_nil rfl rfl)
      (by simp [pendingChunks, joinChunks_singleton]) hchr rfl
  have hspec := canonizeFrom_spec hstart
  simp only [canonizeRewrite, chunkLen_first hreads hlen (by decide), hbytes, doubleStar,
    length_cons, length_nil, and_self, if_true]
  simpa using hspec

/-- From a `$*` on. -/
theorem canonizeRewrite_dollarStar (hreads : Reads m ws (joinChunks (dollarStar :: cs)))
    (hlen : len = ws + (joinChunks (dollarStar :: cs)).length) (hle : len ≤ m.length)
    (hfree : ∀ d ∈ cs, delimiter ∉ d) : RewriteEnds m len ws (canonizeRewrite m len ws)
      ((rewriteChunks false cs).map fun out ↦ starChunk :: out) := by
  have hchr := memchr_first hreads hlen (by decide)
  have hbytes : byteAt m ws = dsl0 ∧ byteAt m (ws + 1) = star := by
    rw [joinChunks_eq] at hreads
    exact ⟨hreads.1, hreads.2.1⟩
  have hws : ws < m.length := lt_length_of_byteAt_ne_zero (by rw [hbytes.1]; decide)
  have hwritten : WrittenAt m (m.set ws star) ws (joinChunks [starChunk]) :=
    writtenAt_writeBytes (t := [star]) (by simpa using Nat.succ_le_of_lt hws)
  have hstart : Rewriting m len ws (ws + dollarStar.length)
      { mem := m.set ws star, nextSlash := memchr m delimiter ws (len - ws), writer := ws + 1,
        inBigWild := false, ret := .success } [starChunk] cs := by
    refine rewriting_start hreads hlen hle hfree ⟨hwritten, ?_, by decide⟩ ?_ hchr rfl
    · simp [joinChunks_singleton, starChunk]
    · simp [pendingChunks, joinChunks_singleton, starChunk, dollarStar]
  have hspec := canonizeFrom_spec hstart
  simp only [canonizeRewrite, chunkLen_first hreads hlen (by decide), hbytes, dollarStar,
    length_cons, length_nil, and_self, if_true, if_neg (show dsl0 ≠ star by decide)]
  simpa using hspec

end Rewrite

end ZenohPico.Keyexpr
