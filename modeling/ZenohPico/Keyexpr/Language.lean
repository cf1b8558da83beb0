import ZenohPico.Foundations.StarMatching
import ZenohPico.Keyexpr.ChunkMatch

/-!
What key expressions are and which keys they stand for, stated without reference to the code.

A key expression is cut into chunks at its `/` bytes. Inside a chunk, `$*` is a star over bytes;
between chunks, `**` is a star over chunks. Both are read as star patterns, so that one notion of
matching serves the two levels. A chunk that starts with `@` is verbatim: no star and no `*` chunk
takes it, and only a pattern chunk that starts with `@` itself matches it.
-/

namespace ZenohPico.Keyexpr

open Foundations List

/-! ### Chunks -/

/-- The byte `#`. -/
def sharp : UInt8 := 35
/-- The byte `?`. -/
def qmark : UInt8 := 63

/-- The chunk `*`. -/
def starChunk : Bytes := [star]
/-- The chunk `**`. -/
def doubleStar : Bytes := [star, star]
/-- The chunk `$*`. -/
def dollarStar : Bytes := [dsl0, star]

/-- The `/`-separated chunks of a string; the empty string has one empty chunk. -/
def chunks (s : Bytes) : List Bytes := s.splitOn delimiter

/-- Put chunks together with `/` between them. -/
def joinChunks (cs : List Bytes) : Bytes := [delimiter].intercalate cs

theorem joinChunks_chunks (s : Bytes) : joinChunks (chunks s) = s :=
  intercalate_splitOn delimiter

theorem joinChunks_singleton (c : Bytes) : joinChunks [c] = c := by
  simp [joinChunks]

theorem joinChunks_cons {cs : List Bytes} (c : Bytes) (hcs : cs ≠ []) :
    joinChunks (c :: cs) = c ++ delimiter :: joinChunks cs := by
  rw [joinChunks, intercalate_cons_of_ne_nil hcs, append_assoc]
  rfl

theorem delimiter_notMem_of_mem_chunks {s c : Bytes} (hc : c ∈ chunks s) : delimiter ∉ c := by
  unfold chunks at hc
  induction s generalizing c with
  | nil =>
    rw [splitOn_nil, mem_singleton] at hc
    subst hc
    simp
  | cons b s ih =>
    rw [splitOn_cons_eq_if_modifyHead] at hc
    split_ifs at hc with hb
    · rcases mem_cons.mp hc with rfl | hc
      · simp
      · exact ih hc
    · cases hs : s.splitOn delimiter with
      | nil => exact absurd hs (splitOn_ne_nil delimiter s)
      | cons d ds =>
        rw [hs, modifyHead_cons] at hc
        rcases mem_cons.mp hc with rfl | hc
        · have hd : delimiter ∉ d := ih (by rw [hs]; exact mem_cons_self)
          simp only [mem_cons, not_or]
          exact ⟨fun h ↦ hb (by simp [← h]), hd⟩
        · exact ih (by rw [hs]; exact mem_cons_of_mem _ hc)

/-! ### Chunks as byte patterns -/

/-- Read a chunk as a pattern over bytes: `$*` is a star, every other byte a letter. -/
def tokenize : Bytes → List (Option UInt8)
  | [] => []
  | [b] => [some b]
  | a :: b :: rest =>
    if a = dsl0 ∧ b = star then none :: tokenize rest else some a :: tokenize (b :: rest)

/-- Write a pattern over bytes back as a chunk. -/
def untokenize : List (Option UInt8) → Bytes
  | [] => []
  | none :: p => dsl0 :: star :: untokenize p
  | some b :: p => b :: untokenize p

theorem untokenize_tokenize (c : Bytes) : untokenize (tokenize c) = c := by
  match c with
  | [] => rfl
  | [b] => rfl
  | a :: b :: rest =>
    rw [tokenize]
    split_ifs with h
    · rw [untokenize, untokenize_tokenize rest, h.1, h.2]
    · rw [untokenize, untokenize_tokenize (b :: rest)]

theorem untokenize_append (p q : List (Option UInt8)) :
    untokenize (p ++ q) = untokenize p ++ untokenize q := by
  induction p with
  | nil => rfl
  | cons a p ih => cases a <;> simp [untokenize, ih]

/-- A byte a chunk may hold outside `$*`. -/
def Literal (b : UInt8) : Prop := b ≠ sharp ∧ b ≠ qmark ∧ b ≠ dsl0 ∧ b ≠ star

instance (b : UInt8) : Decidable (Literal b) := by unfold Literal; infer_instance

theorem tokenize_dollarStar_cons (rest : Bytes) :
    tokenize (dsl0 :: star :: rest) = none :: tokenize rest := by
  rw [tokenize, if_pos ⟨rfl, rfl⟩]

theorem tokenize_cons_of_ne {b : UInt8} (hb : b ≠ dsl0) (rest : Bytes) :
    tokenize (b :: rest) = some b :: tokenize rest := by
  cases rest with
  | nil => rfl
  | cons a rest => rw [tokenize, if_neg (fun h ↦ hb h.1)]

/-! ### Well-formed and canonical key expressions -/

/-- A chunk of a well-formed key expression: not empty, and either `*`, or `**`, or made of literal
bytes and `$*`. -/
def WellFormedChunk (c : Bytes) : Prop :=
  c = starChunk ∨ c = doubleStar ∨ (c ≠ [] ∧ AllLetters Literal (tokenize c))

/-- A well-formed key expression. -/
def WellFormed (s : Bytes) : Prop := ∀ c ∈ chunks s, WellFormedChunk c

/-- A chunk of a canonical key expression: not empty, without `#` and `?`, with every `$` followed
by `*`, with every `*` outside the chunks `*` and `**` preceded by `$`, with no `$*` right after a
`$*`, and not `$*` alone. -/
structure CanonicalChunk (t : Bytes) : Prop where
  ne_nil : t ≠ []
  no_sharp : sharp ∉ t
  no_qmark : qmark ∉ t
  dollar_star : ∀ i, t[i]? = some dsl0 → t[i + 1]? = some star
  star_dollar : t ≠ starChunk → t ≠ doubleStar →
    ∀ i, t[i]? = some star → ∃ j, i = j + 1 ∧ t[j]? = some dsl0
  no_repeat : ¬ dollarStar ++ dollarStar <:+: t
  not_lone : t ≠ dollarStar

/-- A canonical key expression: canonical chunks, and no `**` chunk right before a `*` or `**`
chunk. -/
structure Canonical (s : Bytes) : Prop where
  chunk : ∀ c ∈ chunks s, CanonicalChunk c
  after_double_star : (chunks s).IsChain fun a b ↦ a = doubleStar → b ≠ starChunk ∧ b ≠ doubleStar

/-- `@` occurs in the string only as the first byte of a chunk. -/
def VerbatimAtStart (s : Bytes) : Prop := ∀ c ∈ chunks s, verbatim ∉ c.tail

instance (s : Bytes) : Decidable (VerbatimAtStart s) := by
  unfold VerbatimAtStart
  infer_instance

/-! ### The keys a key expression stands for -/

/-- The chunk starts with `@`. -/
def StartsVerbatim (c : Bytes) : Prop := c.head? = some verbatim

instance (c : Bytes) : Decidable (StartsVerbatim c) := by unfold StartsVerbatim; infer_instance

/-- A chunk of a concrete key: not empty and without wildcards. -/
def ConcreteChunk (x : Bytes) : Prop := x ≠ [] ∧ delimiter ∉ x ∧ star ∉ x ∧ dsl0 ∉ x

instance (x : Bytes) : Decidable (ConcreteChunk x) := by unfold ConcreteChunk; infer_instance

/-- A concrete key, as the list of its chunks. -/
def ConcreteKey (key : List Bytes) : Prop := key ≠ [] ∧ ∀ x ∈ key, ConcreteChunk x

/-- The concrete chunks a pattern chunk other than `**` stands for. -/
def ChunkMatches (c x : Bytes) : Prop :=
  if c = starChunk then ¬ StartsVerbatim x
  else (StartsVerbatim c ↔ StartsVerbatim x) ∧
    Matches (fun a b : UInt8 ↦ a = b) (fun _ ↦ True) (tokenize c) x

/-- A list of chunks read as a pattern over chunks, with `**` as its star. -/
def patternOf (cs : List Bytes) : List (Option Bytes) :=
  cs.map fun c ↦ if c = doubleStar then none else some c

/-- The keys a key expression stands for. -/
def KeyMatches (s : Bytes) (key : List Bytes) : Prop :=
  Matches ChunkMatches (fun x ↦ ¬ StartsVerbatim x) (patternOf (chunks s)) key

/-! ### Canonical chunks as patterns -/

/-- A canonical chunk other than `**`: the chunk `*`, or a chunk whose pattern has literal letters
only, no two stars in a row, and is not a single star. -/
def CanonicalLetter (c : Bytes) : Prop :=
  c = starChunk ∨
    (c ≠ [] ∧ AllLetters Literal (tokenize c) ∧ Reduced (tokenize c) ∧ tokenize c ≠ [none])

theorem literal_of_mem_tokenize {t : Bytes} (hs : sharp ∉ t) (hq : qmark ∉ t)
    (hdollar : ∀ i, t[i]? = some dsl0 → t[i + 1]? = some star)
    (hstar : ∀ i, t[i]? = some star → ∃ j, i = j + 1 ∧ t[j]? = some dsl0) :
    AllLetters Literal (tokenize t) := by
  match t with
  | [] => simp [tokenize, AllLetters]
  | [b] =>
    intro d hd
    simp only [tokenize, mem_singleton, Option.some.injEq] at hd
    subst hd
    refine ⟨by simpa using Ne.symm (by simpa using hs), by simpa using Ne.symm (by simpa using hq),
      ?_, ?_⟩
    · rintro rfl
      simpa using hdollar 0 (by simp)
    · rintro rfl
      obtain ⟨j, hj, -⟩ := hstar 0 (by simp)
      omega
  | a :: b :: rest =>
    simp only [mem_cons, not_or] at hs hq
    rw [tokenize]
    split_ifs with h
    · -- the tail behind `$*` keeps every condition: its stars have their `$` inside it
      obtain ⟨rfl, rfl⟩ := h
      have htail : AllLetters Literal (tokenize rest) := by
        refine literal_of_mem_tokenize hs.2.2 hq.2.2 ?_ ?_
        · intro i hi
          have := hdollar (i + 2) (by simpa using hi)
          simpa using this
        · intro i hi
          obtain ⟨j, hj, hjd⟩ := hstar (i + 2) (by simpa using hi)
          obtain rfl : j = i + 1 := by omega
          cases i with
          | zero => simp [dsl0, star] at hjd
          | succ i => exact ⟨i, rfl, by simpa using hjd⟩
      intro d hd
      simp only [mem_cons, reduceCtorEq, false_or] at hd
      exact htail d hd
    · have ha : a ≠ dsl0 := by
        rintro rfl
        have := hdollar 0 (by simp)
        exact h ⟨rfl, by simpa using this⟩
      have ha' : a ≠ star := by
        rintro rfl
        obtain ⟨j, hj, -⟩ := hstar 0 (by simp)
        omega
      have htail : AllLetters Literal (tokenize (b :: rest)) := by
        refine literal_of_mem_tokenize (by simpa using hs.2) (by simpa using hq.2) ?_ ?_
        · intro i hi
          have := hdollar (i + 1) (by simpa using hi)
          simpa using this
        · intro i hi
          obtain ⟨j, hj, hjd⟩ := hstar (i + 1) (by simpa using hi)
          obtain rfl : j = i := by omega
          cases j with
          | zero => exact absurd (by simpa using hjd) ha
          | succ j => exact ⟨j, rfl, by simpa using hjd⟩
      intro d hd
      simp only [mem_cons, Option.some.injEq] at hd
      rcases hd with rfl | hd
      · exact ⟨Ne.symm hs.1, Ne.symm hq.1, ha, ha'⟩
      · exact htail d hd

end ZenohPico.Keyexpr
