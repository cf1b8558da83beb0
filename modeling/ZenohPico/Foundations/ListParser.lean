import Mathlib.Data.List.Basic

/-!
Parsers that take what they read from the front of a list, and the words they read.

A parser reads a word as a value (`ReadsAs`) if it takes just the word, whatever follows, and fails
on every shorter front of it. Words that are read one after the other make a word that is read
(`ReadsAs.bind`), so that nothing has to be said about the ends of the words in it.
-/

open List

namespace ZenohPico.Foundations

variable {σ ε ε' α β : Type}

/-- A parser, which returns what it did not take -/
abbrev ListParser (σ ε α : Type) := StateT (List σ) (Except ε) α

/-- The parser takes the word as a value, and fails where the word is cut off. -/
structure ReadsAs (p : ListParser σ ε α) (word : List σ) (v : α) : Prop where
  whole : ∀ rest, p (word ++ rest) = .ok (v, rest)
  cut : ∀ front behind, front ++ behind = word → behind ≠ [] → ∃ e, p front = .error e

variable {p : ListParser σ ε α} {f : α → ListParser σ ε β} {v : α}

theorem ListParser.bind_ok {l rest : List σ} (h : p l = .ok (v, rest)) :
    (p >>= f) l = f v rest := by
  change (p l >>= fun r ↦ f r.1 r.2) = _
  rw [h]
  rfl

theorem ListParser.bind_error {l : List σ} {e : ε} (h : p l = .error e) :
    (p >>= f) l = .error e := by
  change (p l >>= fun r ↦ f r.1 r.2) = _
  rw [h]
  rfl

theorem readsAs_pure (v : α) : ReadsAs (pure v : ListParser σ ε α) [] v where
  whole _ := rfl
  cut _ _ h hne := absurd (append_eq_nil_iff.mp h).2 hne

variable {word : List σ}

/-- One word after the other -/
theorem ReadsAs.bind {word' : List σ} {w : β} (hp : ReadsAs p word v) (hf : ReadsAs (f v) word' w) :
    ReadsAs (p >>= f) (word ++ word') w where
  whole rest := by
    rw [append_assoc, ListParser.bind_ok (hp.whole _), hf.whole]
  cut front behind h hne := by
    -- the front ends inside the first word, or the first word is whole
    rcases append_eq_append_iff.mp h with ⟨mid, hword, hbehind⟩ | ⟨mid, hfront, hword'⟩
    · by_cases hmid : mid = []
      · subst hmid
        rw [append_nil] at hword
        rw [nil_append] at hbehind
        subst hword
        obtain ⟨e, he⟩ := hf.cut [] behind hbehind hne
        have hwhole := hp.whole []
        rw [append_nil] at hwhole
        exact ⟨e, (ListParser.bind_ok hwhole).trans he⟩
      · obtain ⟨e, he⟩ := hp.cut front mid hword.symm hmid
        exact ⟨e, ListParser.bind_error he⟩
    · subst hfront
      obtain ⟨e, he⟩ := hf.cut mid behind hword'.symm hne
      exact ⟨e, (ListParser.bind_ok (hp.whole mid)).trans he⟩

theorem ReadsAs.map (h : ReadsAs p word v) (f : α → β) :
    ReadsAs (do let a ← p; pure (f a)) word (f v) := by
  have hbind := h.bind (f := fun a ↦ pure (f a)) (readsAs_pure (f v))
  rwa [append_nil] at hbind

/-- A parser whose result does not change with what is appended fails on the fronts of a word. -/
theorem readsAs_of_extends (hextends : ∀ {l rest : List σ} {a : α}, p l = .ok (a, rest) →
      ∀ more, p (l ++ more) = .ok (a, rest ++ more))
    (hwhole : ∀ rest, p (word ++ rest) = .ok (v, rest)) : ReadsAs p word v where
  whole := hwhole
  cut front behind h hne := by
    cases hfront : p front with
    | error e => exact ⟨e, rfl⟩
    | ok r =>
      obtain ⟨a, rest⟩ := r
      have hall := hextends hfront behind
      have hword := hwhole []
      rw [append_nil] at hword
      rw [h, hword] at hall
      have hnil := (Prod.mk.inj (Except.ok.inj hall)).2
      exact absurd (append_eq_nil_iff.mp hnil.symm).2 hne

/-- The same parser with other errors -/
def ListParser.mapError (p : ListParser σ ε α) (f : ε → ε') : ListParser σ ε' α :=
  fun l ↦ (p l).mapError f

theorem ReadsAs.mapError (h : ReadsAs p word v) (f : ε → ε') :
    ReadsAs (ListParser.mapError p f) word v where
  whole rest := by
    rw [ListParser.mapError, h.whole]
    rfl
  cut front behind heq hne := by
    obtain ⟨e, he⟩ := h.cut front behind heq hne
    exact ⟨f e, by rw [ListParser.mapError, he]; rfl⟩

/-- A fixed number of symbols -/
def takeExactly (e : ε) (n : ℕ) : ListParser σ ε (List σ) := fun l ↦
  if n ≤ l.length then .ok (l.take n, l.drop n) else .error e

theorem readsAs_takeExactly (e : ε) (word : List σ) :
    ReadsAs (takeExactly e word.length) word word where
  whole rest := by
    rw [takeExactly, if_pos (by simp), take_left, drop_left]
  cut front behind h hne := by
    have hlen := congrArg List.length h
    have hpos := length_pos_iff.mpr hne
    rw [length_append] at hlen
    exact ⟨e, if_neg (by omega)⟩

/-- A parser as often as a number says -/
def parseMany (p : ListParser σ ε α) : ℕ → ListParser σ ε (List α)
  | 0 => pure []
  | n + 1 => do
    let a ← p
    let rest ← parseMany p n
    pure (a :: rest)

/-- The words of the elements make the word of a list. -/
theorem readsAs_parseMany {p : ListParser σ ε α} {encode : α → List σ} {vs : List α}
    (h : ∀ v ∈ vs, ReadsAs p (encode v) v) :
    ReadsAs (parseMany p vs.length) (vs.flatMap encode) vs := by
  induction vs with
  | nil => exact readsAs_pure []
  | cons v vs ih =>
    rw [flatMap_cons]
    exact (h v mem_cons_self).bind
      ((ih fun w hw ↦ h w (mem_cons_of_mem _ hw)).map (v :: ·))

end ZenohPico.Foundations
