import ZenohPico.Keyexpr.Canonical
import ZenohPico.Keyexpr.Canonize

/-!
What `_z_keyexpr_is_canon` accepts. The scanner is first read as a function of the chunks it goes
through, carrying the flag it sets behind a `**`; the chunks of one byte are neither looked at nor
do they reset the flag, and the main theorem says what follows from that.
-/

namespace ZenohPico.Keyexpr

open Foundations List

/-! ### Scanning a text -/

/-- The scan of a text, byte by byte. -/
def scanText : ℕ → Bytes → Except CanonStatus ℕ
  | inDollar, [] => .ok inDollar
  | inDollar, b :: t => (scanByte inDollar b).bind fun d ↦ scanText d t

/-- The status of a scan. -/
def textStatus (t : Bytes) : CanonStatus :=
  match scanText 0 t with
  | .error status => status
  | .ok inDollar => if inDollar = 1 then .containsUnboundDollar else .success

variable {s : Bytes} {len : ℕ}

theorem scanBytes_of_reads {b d : ℕ} {t : Bytes} (h : Reads s b t) :
    scanBytes s b t.length d = scanText d t := by
  induction t generalizing b d with
  | nil => rfl
  | cons a t ih =>
    rw [length_cons, scanBytes, scanText, h.1]
    congr 1
    funext d'
    exact ih h.2

theorem scanStatus_of_reads {b e : ℕ} {t : Bytes} (h : Reads s b t) (he : e = b + t.length) :
    scanStatus s b e = textStatus t := by
  have hscan : scanBytes s b (e - b) 0 = scanText 0 t := by
    rw [he, Nat.add_sub_cancel_left, scanBytes_of_reads h]
  cases hs : scanText 0 t <;> simp only [scanStatus, textStatus, hscan, hs]

/-- The scan of a text ends without an error. -/
def ScansOk (d : ℕ) (t : Bytes) : Prop := ∃ e, scanText d t = .ok e ∧ e ≠ 1

/-- The statuses that say a key expression is malformed. -/
def CanonStatus.malformed : CanonStatus → Bool
  | .emptyChunk | .starsInChunk | .dollarAfterDollarOrStar | .containsSharpOrQmark
  | .containsUnboundDollar => true
  | _ => false

variable {status : CanonStatus}

theorem malformed_of_scanByte {d : ℕ} {b : UInt8} (h : scanByte d b = .error status) :
    status.malformed = true := by
  rw [scanByte] at h
  split_ifs at h <;> cases h <;> rfl

theorem malformed_of_scanText {d : ℕ} {t : Bytes} (h : scanText d t = .error status) :
    status.malformed = true := by
  induction t generalizing d with
  | nil => simp [scanText] at h
  | cons a t ih =>
    rw [scanText] at h
    rcases hb : scanByte d a with e | d'
    · rw [hb] at h
      cases h
      exact malformed_of_scanByte hb
    · rw [hb] at h
      exact ih h

theorem textStatus_cases (t : Bytes) : textStatus t = .success ∨ (textStatus t).malformed = true := by
  rw [textStatus]
  rcases h : scanText 0 t with e | d
  · exact Or.inr (malformed_of_scanText h)
  · by_cases hd : d = 1
    · exact Or.inr (by simp [hd, CanonStatus.malformed])
    · exact Or.inl (by simp [hd])

theorem textStatus_eq_success_iff {t : Bytes} : textStatus t = .success ↔ ScansOk 0 t := by
  rw [textStatus, ScansOk]
  rcases h : scanText 0 t with e | d
  · have hne : e ≠ .success := by
      rintro rfl
      exact absurd (malformed_of_scanText h) (by decide)
    simp [hne]
  · by_cases hd : d = 1 <;> simp [hd]

section Scan

variable {t : Bytes} {b : UInt8} {d : ℕ}

theorem scansOk_nil : ScansOk d [] ↔ d ≠ 1 := by
  simp [ScansOk, scanText]

theorem scansOk_cons_literal (hb : Literal b) : ScansOk d (b :: t) ↔ d ≠ 1 ∧ ScansOk 0 t := by
  obtain ⟨hs, hq, hd, hst⟩ := hb
  rw [ScansOk, scanText, scanByte, if_neg (by simp [hs, hq]), if_neg hd, if_neg hst]
  by_cases h : d = 1 <;> simp [h, ScansOk, Except.bind]

theorem scansOk_cons_dollar : ScansOk d (dsl0 :: t) ↔ d = 0 ∧ ScansOk 1 t := by
  rw [ScansOk, scanText, scanByte, if_neg (by decide), if_pos rfl]
  by_cases h : d = 0 <;> simp [h, ScansOk, Except.bind]

theorem scansOk_cons_star : ScansOk d (star :: t) ↔ d = 1 ∧ ScansOk 3 t := by
  rw [ScansOk, scanText, scanByte, if_neg (by decide), if_neg (by decide), if_pos rfl]
  by_cases h : d = 1 <;> simp [h, ScansOk, Except.bind]

theorem scansOk_cons_forbidden (hb : b = sharp ∨ b = qmark) : ¬ ScansOk d (b :: t) := by
  rw [ScansOk, scanText, scanByte, if_pos hb]
  simp [Except.bind]

theorem scansOk_one_cons : ScansOk 1 (b :: t) ↔ b = star ∧ ScansOk 3 t := by
  by_cases hb : Literal b
  · rw [scansOk_cons_literal hb]
    simp [hb.2.2.2]
  · simp only [Literal, not_and_or, not_not] at hb
    rcases hb with hb | hb | rfl | rfl
    · refine iff_of_false (scansOk_cons_forbidden (Or.inl hb)) fun h ↦ ?_
      exact absurd (hb.symm.trans h.1) (by decide)
    · refine iff_of_false (scansOk_cons_forbidden (Or.inr hb)) fun h ↦ ?_
      exact absurd (hb.symm.trans h.1) (by decide)
    · rw [scansOk_cons_dollar]
      exact iff_of_false (fun h ↦ absurd h.1 (by decide)) fun h ↦ absurd h.1 (by decide)
    · rw [scansOk_cons_star]
      simp

end Scan

/-- A scan accepts a text when its pattern is made of literal letters and has no two stars in a row;
behind a `$*` the pattern is looked at with that star in front. -/
theorem scansOk_iff (t : Bytes) :
    (ScansOk 0 t ↔ AllLetters Literal (tokenize t) ∧ Reduced (tokenize t)) ∧
      (ScansOk 3 t ↔ AllLetters Literal (tokenize t) ∧ Reduced (none :: tokenize t)) := by
  match t with
  | [] => simp [scansOk_nil, tokenize, AllLetters, Reduced]
  | [b] =>
    have hsingle : AllLetters Literal (tokenize [b]) ↔ Literal b := by
      simp [tokenize, AllLetters]
    have hred : Reduced (tokenize [b]) ∧ Reduced (none :: tokenize [b]) := by
      simp [tokenize, Reduced]
    rw [hsingle, and_iff_left hred.1, and_iff_left hred.2]
    by_cases hb : Literal b
    · simp [scansOk_cons_literal hb, scansOk_nil, hb]
    · have hbad := hb
      simp only [Literal, not_and_or, not_not] at hbad
      rcases hbad with h | h | rfl | rfl
      · simp [scansOk_cons_forbidden (Or.inl h), hb]
      · simp [scansOk_cons_forbidden (Or.inr h), hb]
      · simp [scansOk_cons_dollar, scansOk_nil, hb]
      · simp [scansOk_cons_star, hb]
  | a :: b :: t =>
    rw [tokenize]
    split_ifs with hab
    · -- `$*`: the state behind it is that of a pattern with a star in front
      obtain ⟨rfl, rfl⟩ := hab
      have hrest := (scansOk_iff t).2
      have hletters : AllLetters Literal (none :: tokenize t) ↔ AllLetters Literal (tokenize t) := by
        simp [AllLetters]
      have hrepeat : ¬ Reduced (none :: none :: tokenize t) := by simp [Reduced]
      rw [scansOk_cons_dollar, scansOk_cons_dollar, scansOk_cons_star, hletters, ← hrest]
      simp [hrepeat]
    · have hrest := scansOk_iff (b :: t)
      have hletters : AllLetters Literal (some a :: tokenize (b :: t)) ↔
          Literal a ∧ AllLetters Literal (tokenize (b :: t)) := by
        simp [AllLetters]
      have hred : Reduced (some a :: tokenize (b :: t)) ↔ Reduced (tokenize (b :: t)) := by
        simp [Reduced, isChain_cons]
      have hred' : Reduced (none :: some a :: tokenize (b :: t)) ↔ Reduced (tokenize (b :: t)) := by
        rw [← hred]
        simp [Reduced]
      rw [hletters, hred, hred', and_assoc, ← hrest.1]
      by_cases ha : Literal a
      · simp [scansOk_cons_literal ha, ha]
      · have hbad := ha
        simp only [Literal, not_and_or, not_not] at hbad
        rcases hbad with h | h | rfl | rfl
        · simp [scansOk_cons_forbidden (Or.inl h), ha]
        · simp [scansOk_cons_forbidden (Or.inr h), ha]
        · have hb : b ≠ star := fun h ↦ hab ⟨rfl, h⟩
          simp [scansOk_cons_dollar, scansOk_one_cons, hb, ha]
        · simp [scansOk_cons_star, ha]

theorem textStatus_eq_success_iff_letter {c : Bytes} (hlen : 2 ≤ c.length) (hlone : c ≠ dollarStar) :
    textStatus c = .success ↔ CanonicalLetter c := by
  have hne : c ≠ [] := by
    rintro rfl
    simp at hlen
  have hstar : c ≠ starChunk := by
    rintro rfl
    simp [starChunk] at hlen
  have htok : tokenize c ≠ [none] := by
    intro h
    refine hlone ?_
    rw [← untokenize_tokenize c, h]
    rfl
  rw [textStatus_eq_success_iff, (scansOk_iff c).1, CanonicalLetter]
  simp [hne, hstar, htok]

/-! ### Scanning chunks -/

/-- The pass of the scanner over a chunk: the flag to go on with, or the status it stops with. -/
def chunkPass (inBigWild : Bool) (c : Bytes) : Pass Bool CanonStatus :=
  if c.length = 0 then .done .emptyChunk
  else if c.length = 1 then
    if inBigWild ∧ c = starChunk then .done .singleStarAfterDoubleStar else .next inBigWild
  else if c = dollarStar then .done .loneDollarStar
  else if c = doubleStar then
    if inBigWild then .done .doubleStarAfterDoubleStar else .next true
  else
    match textStatus c with
    | .success => .next false
    | status => .done status

/-- The length the scanner leaves behind when it stops at a chunk at `b`. -/
def stopLen (len b : ℕ) : CanonStatus → ℕ
  | .loneDollarStar => b
  | .singleStarAfterDoubleStar | .doubleStarAfterDoubleStar => b - 3
  | _ => len

/-- The scanner on chunks, the first of them at `b`. -/
def scanChunks (len : ℕ) : Bool → ℕ → List Bytes → CanonStatus × ℕ
  | _, _, [] => (.success, len)
  | inBigWild, b, c :: cs =>
    match chunkPass inBigWild c with
    | .next inBigWild => scanChunks len inBigWild (b + c.length + 1) cs
    | .done status => (status, stopLen len b status)

theorem stopLen_of_malformed (h : status.malformed = true) (len b : ℕ) :
    stopLen len b status = len := by
  cases status <;> simp_all [stopLen, CanonStatus.malformed]

theorem chunkPass_ne_success {inBigWild : Bool} {c : Bytes} :
    chunkPass inBigWild c ≠ .done .success := by
  rw [chunkPass]
  split_ifs <;> try simp
  rcases textStatus_cases c with h | h
  · simp [h]
  · cases hst : textStatus c <;> simp_all [CanonStatus.malformed]

theorem single_iff_of_reads {b : ℕ} {c : Bytes} (h : Reads s b c) {x : UInt8} :
    c.length = 1 ∧ byteAt s b = x ↔ c = [x] := by
  rcases c with _ | ⟨a, _ | ⟨a', c⟩⟩
  · simp
  · simp [h.1]
  · simp

theorem pair_iff_of_reads {b : ℕ} {c : Bytes} (h : Reads s b c) {x y : UInt8} :
    c.length = 2 ∧ byteAt s (b + 1) = y ∧ byteAt s b = x ↔ c = [x, y] := by
  rcases c with _ | ⟨a, _ | ⟨a', _ | ⟨a'', c⟩⟩⟩
  · simp
  · simp
  · simp [h.1, h.2.1, and_comm]
  · simp

/-- The pass of the scanner at a chunk. -/
theorem canonPrefixPass_of_chunkAt {b : ℕ} {c : Bytes} (h : ChunkAt s b len c) (inBigWild : Bool) :
    canonPrefixPass s len inBigWild b =
      match chunkPass inBigWild c with
      | .next inBigWild => .next inBigWild
      | .done status => .done (status, stopLen len b status) := by
  have hlen : chunkEnd s b len - b = c.length := by
    rw [h.chunkEnd_eq]
    omega
  have hscan : scanStatus s b (chunkEnd s b len) = textStatus c :=
    scanStatus_of_reads h.reads h.chunkEnd_eq
  have hsingle : c.length = 1 → (byteAt s b = star ↔ c = starChunk) := fun hone ↦ by
    rw [starChunk, ← single_iff_of_reads h.reads, and_iff_right hone]
  simp only [canonPrefixPass, hlen, hscan, pair_iff_of_reads h.reads]
  rw [chunkPass, dollarStar, doubleStar]
  split_ifs with hzero hone hwild hwild' hwild' hlone hdouble hbig
  · rfl
  · rfl
  · exact absurd ⟨hwild.1, (hsingle hone).mp hwild.2⟩ hwild'
  · exact absurd ⟨hwild'.1, (hsingle hone).mpr hwild'.2⟩ hwild
  · rfl
  · rfl
  · rfl
  · rfl
  · rcases textStatus_cases c with hst | hst
    · rw [hst]
    · have hstop := stopLen_of_malformed hst len b
      cases htext : textStatus c <;> simp_all [CanonStatus.malformed]

variable {cs : List Bytes}

theorem chunkAt_of_reads {b : ℕ} {c : Bytes} (hreads : Reads s b (joinChunks (c :: cs)))
    (hlen : len = b + (joinChunks (c :: cs)).length) (hfree : delimiter ∉ c) :
    ChunkAt s b len c := by
  rcases eq_or_ne cs [] with rfl | hcs
  · rw [joinChunks_singleton] at hreads hlen
    exact ⟨hreads, hfree, Or.inl hlen.symm⟩
  · rw [joinChunks_cons c hcs] at hreads hlen
    obtain ⟨hc, hdel, -⟩ := reads_append_iff.mp hreads
    rw [length_append, length_cons] at hlen
    exact ⟨hc, hfree, Or.inr ⟨by omega, hdel⟩⟩

theorem reads_tail_chunks {b : ℕ} {c : Bytes} (hcs : cs ≠ [])
    (hreads : Reads s b (joinChunks (c :: cs))) (hlen : len = b + (joinChunks (c :: cs)).length) :
    Reads s (b + c.length + 1) (joinChunks cs) ∧
      len = b + c.length + 1 + (joinChunks cs).length := by
  rw [joinChunks_cons c hcs] at hreads hlen
  refine ⟨(reads_append_iff.mp hreads).2.2, ?_⟩
  rw [length_append, length_cons] at hlen
  omega

/-- The scanner, from the first of some chunks to the end. -/
theorem canonPrefixLoop_of_reads {b : ℕ} {c : Bytes} (hreads : Reads s b (joinChunks (c :: cs)))
    (hlen : len = b + (joinChunks (c :: cs)).length) (hfree : ∀ d ∈ c :: cs, delimiter ∉ d)
    (inBigWild : Bool) :
    canonPrefixLoop s len inBigWild b = scanChunks len inBigWild b (c :: cs) := by
  induction cs generalizing b c inBigWild with
  | nil =>
    have hchunk := chunkAt_of_reads hreads hlen (hfree c (by simp))
    rw [joinChunks_singleton] at hlen
    rw [canonPrefixLoop, canonPrefixPass_of_chunkAt hchunk, scanChunks, hchunk.chunkEnd_eq]
    cases chunkPass inBigWild c with
    | done status => rfl
    | next big =>
      simp only [scanChunks]
      rw [if_neg (by omega), if_neg (by omega)]
  | cons d cs ih =>
    have hchunk := chunkAt_of_reads hreads hlen (hfree c (by simp))
    obtain ⟨hreads', hlen'⟩ := reads_tail_chunks (by simp) hreads hlen
    rw [canonPrefixLoop, canonPrefixPass_of_chunkAt hchunk, scanChunks, hchunk.chunkEnd_eq]
    cases chunkPass inBigWild c with
    | done status => rfl
    | next big =>
      have hrest := ih hreads' hlen' (fun e he ↦ hfree e (mem_cons_of_mem _ he)) big
      by_cases hlt : b + c.length + 1 < len
      · simp only [if_pos hlt]
        exact hrest
      · -- the string ends in a `/`: what is left is one empty chunk
        have hempty : joinChunks (d :: cs) = [] := eq_nil_of_length_eq_zero (by omega)
        obtain rfl : d = [] := by
          rcases eq_or_ne cs [] with rfl | hcs
          · rwa [joinChunks_singleton] at hempty
          · rw [joinChunks_cons d hcs] at hempty
            simp at hempty
        simp only [if_neg hlt, if_pos (show b + c.length + 1 ≤ len by omega)]
        rfl

/-! ### What is accepted -/

/-- The flag behind the chunks, when the scanner gets past them. -/
def passState : Bool → List Bytes → Option Bool
  | inBigWild, [] => some inBigWild
  | inBigWild, c :: cs =>
    match chunkPass inBigWild c with
    | .next inBigWild => passState inBigWild cs
    | .done _ => none

theorem scanChunks_eq_success_iff {inBigWild : Bool} {b : ℕ} :
    (scanChunks len inBigWild b cs).1 = .success ↔ (passState inBigWild cs).isSome := by
  induction cs generalizing inBigWild b with
  | nil => simp [scanChunks, passState]
  | cons c cs ih =>
    rw [scanChunks, passState]
    rcases hpass : chunkPass inBigWild c with big | status
    · exact ih
    · have hne : status ≠ .success := by
        rintro rfl
        exact chunkPass_ne_success hpass
      simp [hne]

theorem keyexprIsCanon_eq_success_iff (s : Bytes) :
    keyexprIsCanon s s.length = .success ↔ (passState false (chunks s)).isSome := by
  obtain ⟨c, cs, hcs⟩ := exists_cons_of_ne_nil (chunks_ne_nil s)
  have hjoin := joinChunks_chunks s
  rw [hcs] at hjoin
  have hreads : Reads s 0 (joinChunks (c :: cs)) := by
    rw [hjoin]
    exact reads_self s
  have hfree : ∀ d ∈ c :: cs, delimiter ∉ d := by
    rw [← hcs]
    exact fun d hd ↦ delimiter_notMem_of_mem_chunks hd
  rw [keyexprIsCanon, canonPrefix,
    canonPrefixLoop_of_reads hreads (by rw [hjoin, Nat.zero_add]) hfree false,
    scanChunks_eq_success_iff, hcs]

theorem CanonicalLetter.ne_doubleStar {c : Bytes} (h : CanonicalLetter c) : c ≠ doubleStar := by
  rintro rfl
  rcases h with h | ⟨-, hlit, -⟩
  · exact absurd h (by decide)
  · exact absurd hlit (by decide)

theorem CanonicalLetter.ne_dollarStar {c : Bytes} (h : CanonicalLetter c) : c ≠ dollarStar := by
  rintro rfl
  rcases h with h | ⟨-, -, -, hstar⟩
  · exact absurd h (by decide)
  · exact absurd rfl hstar

section Chunks

variable {inBigWild : Bool} {c : Bytes}

theorem chunkPass_single (hc : c.length = 1) (hwild : inBigWild = true → c ≠ starChunk) :
    chunkPass inBigWild c = .next inBigWild := by
  rw [chunkPass, if_neg (by omega), if_pos hc, if_neg (fun h ↦ hwild h.1 h.2)]

theorem chunkPass_letter (hc : CanonicalLetter c) (hlen : 2 ≤ c.length) :
    chunkPass inBigWild c = .next false := by
  rw [chunkPass, if_neg (by omega), if_neg (by omega), if_neg hc.ne_dollarStar,
    if_neg hc.ne_doubleStar, (textStatus_eq_success_iff_letter hlen hc.ne_dollarStar).mpr hc]

theorem chunkPass_bad (hc : c.length ≠ 1) (hds : c ≠ doubleStar) (hletter : ¬ CanonicalLetter c) :
    ∃ status, chunkPass inBigWild c = .done status := by
  by_cases hzero : c.length = 0
  · exact ⟨.emptyChunk, by rw [chunkPass, if_pos hzero]⟩
  by_cases hlone : c = dollarStar
  · exact ⟨.loneDollarStar, by rw [chunkPass, if_neg hzero, if_neg hc, if_pos hlone]⟩
  have hst := mt (textStatus_eq_success_iff_letter (by omega) hlone).mp hletter
  rw [chunkPass, if_neg hzero, if_neg hc, if_neg hlone, if_neg hds]
  cases htext : textStatus c with
  | success => exact absurd htext hst
  | _ => exact ⟨_, rfl⟩

end Chunks

/-- A canonical chunk, or any chunk of one byte. -/
def LooseChunk (c : Bytes) : Prop := CanonicalChunk c ∨ c.length = 1

/-- Chunks of one byte lead to a `*` or a `**`. -/
def LeadsToWild (cs : List Bytes) : Prop :=
  ∃ run c rest, cs = run ++ c :: rest ∧ (∀ d ∈ run, d.length = 1) ∧ (c = starChunk ∨ c = doubleStar)

/-- From a `**`, chunks of one byte, or none, lead to a `*` or a `**`. -/
def Blocked (cs : List Bytes) : Prop :=
  ∃ before rest, cs = before ++ doubleStar :: rest ∧ LeadsToWild rest

theorem not_leadsToWild_nil : ¬ LeadsToWild [] := by
  rintro ⟨run, c, rest, h, -⟩
  simp at h

theorem leadsToWild_cons_iff {c : Bytes} : LeadsToWild (c :: cs) ↔
      (c = starChunk ∨ c = doubleStar) ∨ c.length = 1 ∧ LeadsToWild cs := by
  constructor
  · rintro ⟨_ | ⟨d, run⟩, e, rest, h, hrun, he⟩
    · obtain ⟨rfl, -⟩ := List.cons.inj h
      exact Or.inl he
    · obtain ⟨rfl, rfl⟩ := List.cons.inj h
      exact Or.inr ⟨hrun c (by simp), run, e, rest, rfl,
        fun d hd ↦ hrun d (mem_cons_of_mem _ hd), he⟩
  · rintro (h | ⟨hc, run, e, rest, rfl, hrun, he⟩)
    · exact ⟨[], c, cs, rfl, by simp, h⟩
    · exact ⟨c :: run, e, rest, rfl, by simpa [hc] using hrun, he⟩

theorem not_blocked_nil : ¬ Blocked [] := by
  rintro ⟨before, rest, h, -⟩
  simp at h

theorem blocked_cons_iff {c : Bytes} :
    Blocked (c :: cs) ↔ c = doubleStar ∧ LeadsToWild cs ∨ Blocked cs := by
  constructor
  · rintro ⟨_ | ⟨d, before⟩, rest, h, hrest⟩
    · obtain ⟨rfl, rfl⟩ := List.cons.inj h
      exact Or.inl ⟨rfl, hrest⟩
    · obtain ⟨rfl, rfl⟩ := List.cons.inj h
      exact Or.inr ⟨before, rest, rfl, hrest⟩
  · rintro (⟨rfl, hrest⟩ | ⟨before, rest, rfl, hrest⟩)
    · exact ⟨[], cs, rfl, hrest⟩
    · exact ⟨c :: before, rest, rfl, hrest⟩

/-- The scanner gets past chunks that are loose and not blocked. -/
theorem passState_isSome_iff {inBigWild : Bool} : (passState inBigWild cs).isSome ↔
      (∀ c ∈ cs, LooseChunk c) ∧ ¬ Blocked cs ∧ (inBigWild = true → ¬ LeadsToWild cs) := by
  induction cs generalizing inBigWild with
  | nil => simp [passState, not_blocked_nil, not_leadsToWild_nil]
  | cons c cs ih =>
    rw [passState, forall_mem_cons, blocked_cons_iff, leadsToWild_cons_iff]
    by_cases hds : c = doubleStar
    · subst hds
      have hloose : LooseChunk doubleStar := Or.inl canonicalChunk_doubleStar
      cases inBigWild with
      | true => simp [chunkPass, doubleStar, dollarStar, star, dsl0]
      | false =>
        have hpass : chunkPass false doubleStar = .next true := by decide
        rw [hpass]
        simp only [ih, hloose]
        tauto
    by_cases hone : c.length = 1
    · have hloose : LooseChunk c := Or.inr hone
      by_cases hwild : inBigWild = true ∧ c = starChunk
      · rw [chunkPass, if_neg (by omega), if_pos hone, if_pos hwild]
        simp [hwild.1, hwild.2]
      · rw [chunkPass_single hone fun h h' ↦ hwild ⟨h, h'⟩]
        simp only [ih, hloose, hone, hds]
        tauto
    have hstar : c ≠ starChunk := by
      rintro rfl
      exact hone rfl
    by_cases hletter : CanonicalLetter c
    · have hlen : 2 ≤ c.length := by
        have := length_pos_of_ne_nil hletter.ne_nil
        omega
      have hloose : LooseChunk c := Or.inl hletter.canonicalChunk
      rw [chunkPass_letter hletter hlen]
      simp only [ih, hloose, hone, hds, hstar]
      tauto
    · obtain ⟨status, hstatus⟩ : ∃ status, chunkPass inBigWild c = .done status :=
        chunkPass_bad hone hds hletter
      have hloose : ¬ LooseChunk c := by
        rw [LooseChunk, canonicalChunk_iff]
        tauto
      rw [hstatus]
      simp [hloose]

/-- The string is canonical but for its chunks of one byte, which may be any. -/
structure Loose (s : Bytes) : Prop where
  chunk : ∀ c ∈ chunks s, LooseChunk c
  after_double_star : (chunks s).IsChain fun a b ↦ a = doubleStar → b ≠ starChunk ∧ b ≠ doubleStar

/-- From a `**` of the string, one or more chunks of one byte lead to a `*` or a `**`. -/
def Shadowed (s : Bytes) : Prop :=
  ∃ before run c rest, chunks s = before ++ doubleStar :: (run ++ c :: rest) ∧ run ≠ [] ∧
    (∀ d ∈ run, d.length = 1) ∧ (c = starChunk ∨ c = doubleStar)

/-- The string has a chunk `#`, `?` or `$`. -/
def HasForbiddenByte (s : Bytes) : Prop :=
  ∃ c ∈ chunks s, c = [sharp] ∨ c = [qmark] ∨ c = [dsl0]

theorem not_blocked_iff : ¬ Blocked (chunks s) ↔
      ((chunks s).IsChain fun a b ↦ a = doubleStar → b ≠ starChunk ∧ b ≠ doubleStar) ∧
        ¬ Shadowed s := by
  rw [isChain_iff_forall_rel_of_append_cons_cons]
  constructor
  · intro h
    refine ⟨?_, ?_⟩
    · rintro a b before rest hsplit rfl
      have hwild : ¬ (b = starChunk ∨ b = doubleStar) := fun hb ↦
        h ⟨before, b :: rest, hsplit, [], b, rest, rfl, by simp, hb⟩
      tauto
    · rintro ⟨before, run, c, rest, hsplit, -, hrun, hc⟩
      exact h ⟨before, _, hsplit, run, c, rest, rfl, hrun, hc⟩
  · rintro ⟨hchain, hshadow⟩ ⟨before, _, hsplit, run, c, rest, rfl, hrun, hc⟩
    rcases eq_or_ne run [] with rfl | hne
    · have hc' := hchain hsplit rfl
      tauto
    · exact hshadow ⟨before, run, c, rest, hsplit, hne, hrun, hc⟩

theorem keyexprIsCanon_success_iff :
    keyexprIsCanon s s.length = .success ↔ Loose s ∧ ¬ Shadowed s := by
  rw [keyexprIsCanon_eq_success_iff, passState_isSome_iff, not_blocked_iff]
  constructor
  · rintro ⟨hchunk, ⟨hchain, hshadow⟩, -⟩
    exact ⟨⟨hchunk, hchain⟩, hshadow⟩
  · rintro ⟨h, hshadow⟩
    exact ⟨h.chunk, ⟨h.after_double_star, hshadow⟩, by simp⟩

theorem canonicalChunk_iff_loose {c : Bytes} :
    CanonicalChunk c ↔ LooseChunk c ∧ ¬ (c = [sharp] ∨ c = [qmark] ∨ c = [dsl0]) := by
  constructor
  · intro h
    refine ⟨Or.inl h, ?_⟩
    rintro (rfl | rfl | rfl) <;> exact absurd h (by decide)
  · rintro ⟨h | hone, hbyte⟩
    · exact h
    · obtain ⟨b, rfl⟩ := length_eq_one_iff.mp hone
      simp only [List.cons.injEq, and_true, not_or] at hbyte
      rw [canonicalChunk_iff]
      refine Or.inr ?_
      by_cases hb : b = star
      · exact Or.inl (by rw [hb]; rfl)
      · refine Or.inr ⟨by simp, ?_, by simp [tokenize, Reduced], by simp [tokenize]⟩
        simpa [tokenize, AllLetters, Literal] using ⟨hbyte.1, hbyte.2.1, hbyte.2.2, hb⟩

theorem canonical_iff_loose : Canonical s ↔ Loose s ∧ ¬ HasForbiddenByte s := by
  constructor
  · intro h
    refine ⟨⟨fun c hc ↦ (canonicalChunk_iff_loose.mp (h.chunk c hc)).1, h.after_double_star⟩, ?_⟩
    rintro ⟨c, hc, hbyte⟩
    exact (canonicalChunk_iff_loose.mp (h.chunk c hc)).2 hbyte
  · rintro ⟨h, hbyte⟩
    exact ⟨fun c hc ↦ canonicalChunk_iff_loose.mpr ⟨h.chunk c hc, fun hb ↦ hbyte ⟨c, hc, hb⟩⟩,
      h.after_double_star⟩

/-- `_z_keyexpr_is_canon` is right about a string unless the string is canonical but for its chunks
of one byte, and exactly one of two things is the case: one of these chunks is `#`, `?` or `$`, which
is not noticed, or they hide from a `**` that a `*` or `**` is not right behind it. -/
theorem keyexprIsCanon_iff_canonical_iff (s : Bytes) :
    (keyexprIsCanon s s.length = .success ↔ Canonical s) ↔
      (Loose s → (Shadowed s ↔ HasForbiddenByte s)) := by
  rw [keyexprIsCanon_success_iff, canonical_iff_loose]
  tauto

/-- The string `#` is accepted and not canonical; `**/a/*` is canonical and not accepted. -/
theorem keyexprIsCanon_wrong : (keyexprIsCanon [sharp] 1 = .success ∧ ¬ Canonical [sharp]) ∧
      (keyexprIsCanon (joinChunks [doubleStar, [97], starChunk]) 6 = .singleStarAfterDoubleStar ∧
        Canonical (joinChunks [doubleStar, [97], starChunk])) :=
  ⟨⟨by decide +kernel, by decide⟩, by decide +kernel, by decide⟩

end ZenohPico.Keyexpr
