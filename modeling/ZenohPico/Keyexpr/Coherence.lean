import ZenohPico.Keyexpr.Matching

/-!
How the answers of `_z_keyexpr_intersects` and `_z_keyexpr_includes` about several key expressions
fit together (`src/session/keyexpr.c`).
-/

open List Option

namespace ZenohPico.Keyexpr

/-- A canonical key expression without terminators, in which `@` only starts chunks -/
structure Regular (s : Bytes) : Prop where
  canonical : Canonical s
  verbatim : VerbatimAtStart s
  unterminated : 0 ∉ s

variable {l r k : Bytes} {n : ℕ}

theorem eq_of_strncmpEq (hlen : l.length = r.length) (hl : 0 ∉ l)
    (h : strncmpEq l r l.length = true) : l = r := by
  induction l generalizing r with
  | nil => exact (eq_nil_of_length_eq_zero hlen.symm).symm
  | cons a l ih =>
    obtain ⟨b, r, rfl⟩ := exists_cons_of_length_eq_add_one hlen.symm
    have ha : a ≠ 0 := fun heq ↦ hl (heq ▸ mem_cons_self)
    change (if a ≠ b then false else if a = 0 then true else strncmpEq l r l.length) = true at h
    have hab : a = b := by_contra fun hab ↦ by rw [if_pos hab] at h; cases h
    rw [if_neg (not_not.mpr hab), if_neg ha] at h
    rw [hab, ih (Nat.succ.inj hlen) (fun hmem ↦ hl (mem_cons_of_mem _ hmem)) h]

theorem Regular.eq_of_same (hl : Regular l) (h : sameKeyexpr l r = true) : l = r := by
  obtain ⟨hlen, hbytes⟩ := Bool.and_eq_true_iff.mp h
  exact eq_of_strncmpEq (beq_iff_eq.mp hlen) hl.unterminated hbytes

theorem Regular.commonKey_of_intersects (hl : Regular l) (hr : Regular r) {answer : Bool}
    (h : keyexprIntersects l r n = some answer) : answer = true ↔ CommonKey l r := by
  by_cases hsame : sameKeyexpr l r = true
  · rw [keyexprIntersects, keyexprMatch_of_same hsame] at h
    obtain rfl := hl.eq_of_same hsame
    exact iff_of_true (some.inj h).symm (commonKey_self hl.canonical hl.verbatim)
  · rw [commonKey_iff hl.canonical hr.canonical]
    exact keyVerbatim_intersects (hl.canonical.alignedLetters hl.verbatim)
      (hr.canonical.alignedLetters hr.verbatim) hl.canonical.reduced hr.canonical.reduced
      (keyVerbatim_of_answer hl.canonical hr.canonical hl.verbatim hr.verbatim hsame h)

theorem Regular.includesKeys (hl : Regular l) (hr : Regular r)
    (h : keyexprIncludes l r n = some true) : IncludesKeys l r := by
  by_cases hsame : sameKeyexpr l r = true
  · obtain rfl := hl.eq_of_same hsame
    exact fun _ _ hkey ↦ hkey
  · exact includesKeys_of_covers (keyVerbatim_includes (hl.canonical.alignedLetters hl.verbatim)
      (hr.canonical.alignedLetters hr.verbatim) hl.canonical.reduced hr.canonical.reduced
      (keyVerbatim_of_answer hl.canonical hr.canonical hl.verbatim hr.verbatim hsame h))

/-- The order of the arguments of `_z_keyexpr_intersects` does not matter, and a key expression that
includes another one intersects whatever that one intersects, itself among it. -/
theorem keyexpr_answers_coherent (hl : Regular l) (hr : Regular r) (hk : Regular k) :
    (∀ n m a b, keyexprIntersects l r n = some a → keyexprIntersects r l m = some b → a = b) ∧
      ∀ n, keyexprIncludes l r n = some true →
        (∀ m b, keyexprIntersects l r m = some b → b = true) ∧
          ∀ m i b, keyexprIntersects r k m = some true → keyexprIntersects l k i = some b →
            b = true := by
  refine ⟨fun n m a b ha hb ↦ ?_, fun n hincludes ↦ ?_⟩
  · have hsymm : CommonKey l r ↔ CommonKey r l :=
      exists_congr fun _ ↦ and_congr_right fun _ ↦ and_comm
    rw [Bool.eq_iff_iff, hl.commonKey_of_intersects hr ha, hsymm, hr.commonKey_of_intersects hl hb]
  · have hkeys := hl.includesKeys hr hincludes
    refine ⟨fun m b hb ↦ ?_, fun m i b hm hb ↦ ?_⟩
    · obtain ⟨key, hkey, hself, -⟩ := commonKey_self hr.canonical hr.verbatim
      exact (hl.commonKey_of_intersects hr hb).mpr ⟨key, hkey, hkeys key hkey hself, hself⟩
    · obtain ⟨key, hkey, hrkey, hkkey⟩ := (hr.commonKey_of_intersects hk hm).mp rfl
      exact (hl.commonKey_of_intersects hk hb).mpr ⟨key, hkey, hkeys key hkey hrkey, hkkey⟩

/-- `a/**` includes `a/*`, which intersects `*/b`. -/
theorem keyexpr_answers_coherent_sample :
    keyexprIntersects (joinChunks [[97], doubleStar]) (joinChunks [[42], [98]]) 12 = some true := by
  have hall := ((keyexpr_answers_coherent (l := joinChunks [[97], doubleStar])
    (r := joinChunks [[97], [42]]) (k := joinChunks [[42], [98]])
    ⟨by decide, by decide, by decide⟩ ⟨by decide, by decide, by decide⟩
      ⟨by decide, by decide, by decide⟩).2 12 (by decide +kernel)).2 12 12
  refine (eq_some_of_isSome (by decide +kernel)).trans (congrArg some ?_)
  exact hall _ (by decide +kernel) (eq_some_of_isSome _)

end ZenohPico.Keyexpr
