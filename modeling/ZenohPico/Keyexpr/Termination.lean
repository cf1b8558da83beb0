import ZenohPico.Keyexpr.Canonical
import ZenohPico.Keyexpr.KeyMeaning
import ZenohPico.Keyexpr.Standstill

/-!
What the two callers come to. For any two strings they answer unless the matchers are lost. For
canonical key expressions whose parts are cut between chunks, what they answer is a matter of the
chunks.
-/

namespace ZenohPico.Keyexpr

open Foundations

theorem keyParts_cut {op : MatchOp} {A B C D : List (Option Bytes)} {v u : Bytes}
    (hA : clean A = true) (hC : clean C = true) (hv : verbatim ∈ v) (hu : verbatim ∈ u) :
    keyParts op (A ++ some v :: B) (C ++ some u :: D) = (keyPlain op A C).bind fun matched ↦
        if matched && chunkFwd op v u then keyParts op B D else some false := by
  rw [keyParts, if_neg (by simp)]
  split
  case h_1 hP hQ => simp [cutVerbatim_append hA hv] at hP
  case h_2 hP hQ =>
    simp only [cutVerbatim_append hA hv, cutVerbatim_append hC hu, Option.some.injEq,
      Prod.mk.injEq] at hP hQ
    obtain ⟨rfl, rfl, rfl⟩ := hP
    obtain ⟨rfl, rfl, rfl⟩ := hQ
    rfl
  case h_3 hsome =>
    exact (hsome A v B C u D (cutVerbatim_append hA hv) (cutVerbatim_append hC hu)).elim

/-- What the two key expressions hand to the parts matcher, if anything, is cut between chunks: one
side is without `@`, or every `@` opens a chunk. -/
def CutBetweenChunks (op : MatchOp) (l r : Bytes) : Prop :=
  sameKeyexpr l r = true ∨ MiddlesWhole op (patternOf (chunks l)) (patternOf (chunks r))

/-- The callers compute what the matchers on patterns answer, where the parts that are compared one
by one are cut at chunks. -/
theorem keyexprMatch_computes_of_meets {op : MatchOp} {l r : Bytes}
    {rest Other : List (Option Bytes) → Prop} {pair : Bytes → Bytes → Prop} (hl : Canonical l)
    (hr : Canonical r) (h : sameKeyexpr l r = true ∨
      MeetsFront op.typeIntersects (chunkFwd op) (chunkBwd op) rest
        (fun x y ↦ CutsAtChunks op Other (none :: x) y) pair (patternOf (chunks l))
        (patternOf (chunks r))) : Computes (keyexprMatch op l r) (if sameKeyexpr l r then some true
      else keyVerbatim op (patternOf (chunks l)) (patternOf (chunks r))) := by
  by_cases hsame : sameKeyexpr l r = true
  · rw [if_pos hsame]
    exact computes_const fun n ↦ by rw [keyexprMatch, if_pos hsame]
  · rw [if_neg hsame]
    have hforward := forward_verbatim op hl.keyAt hr.keyAt hl.reduced hr.reduced
      (h.resolve_left hsame)
    have heq : keyexprMatch op l r = fun n ↦ keyexprForward op n l 0 l.length r 0 r.length true := by
      funext n
      rw [keyexprMatch, if_neg hsame]
    rw [heq]
    exact hforward

theorem keyexprMatch_computes {op : MatchOp} {l r : Bytes} (hl : Canonical l) (hr : Canonical r)
    (hcut : CutBetweenChunks op l r) :
    Computes (keyexprMatch op l r) (if sameKeyexpr l r then some true
      else keyVerbatim op (patternOf (chunks l)) (patternOf (chunks r))) :=
  keyexprMatch_computes_of_meets hl hr (hcut.imp_right MiddlesWhole.meets)

/-- `**/@x/cc@d/**` and `@x/$*@b`: the second part of the right side is cut behind the `$` of its
`$*`, and the end of its chunk is searched behind the string. -/
theorem lost_outside : Lost .intersects [42, 42, 47, 64, 120, 47, 99, 99, 64, 100, 47, 42, 42]
      [64, 120, 47, 36, 42, 64, 98] := by
  let l : Bytes := [42, 42, 47, 64, 120, 47, 99, 99, 64, 100, 47, 42, 42]
  let r : Bytes := [64, 120, 47, 36, 42, 64, 98]
  have hnext : PartsLost .intersects l 13 r 7 (6, 3) :=
    .front (v := 8) (u := 5) (by decide) (by decide +kernel) (by decide +kernel)
      (.outside (by decide) (by decide +kernel))
  have hparts : PartsLost .intersects l 13 r 7 (0, 0) := by
    refine .chunk (v := 3) (u := 0) (by decide) (by decide +kernel) (by decide +kernel)
      ⟨5, by decide +kernel⟩ (by decide +kernel) ?_
    rwa [show behindChunks .intersects l 13 r 7 (3, 0) = (6, 3) by decide +kernel]
  exact ⟨by decide, .left (by decide) (by decide +kernel) (by decide)
    (.left (by decide) (by decide +kernel) hparts)⟩

end ZenohPico.Keyexpr
