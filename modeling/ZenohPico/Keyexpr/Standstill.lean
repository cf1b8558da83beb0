import Mathlib.Data.Prod.Lex
import ZenohPico.Keyexpr.KeyRefinement

/-!
Where the key expression matchers are lost. They are lost in two ways: the outer loop of
`_z_keyexpr_special` stands still where a `**` is right behind the chunks that it has found, and a
comparison of chunks leaves its string where `_z_chunk_end` is given a part that was cut behind the
`$` of a `$*`. `Lost` says which chunks have to match, and where a `**` and an `@` have to stand, so
that a call comes to such a place. In every other case each pass takes bytes off, and the call has
an answer (`keyexprMatch_terminates_iff_not_lost`).
-/

namespace ZenohPico.Keyexpr

open Foundations

/-! ### The two ways to be lost -/

section Special

variable (op : MatchOp) (l : Bytes) (lend : ℕ) (r : Bytes) (rend : ℕ)

/-- The places behind two chunks that match forward. -/
def behindChunks (s : ℕ × ℕ) : ℕ × ℕ :=
  ((chunkForward op l s.1 lend r s.2 rend).lend + delimiterLen,
    (chunkForward op l s.1 lend r s.2 rend).rend + delimiterLen)

/-- The search of `_z_keyexpr_special` for the chunks from `lbegin` up to `lend`, one place of the
right side after the other. It ends behind the chunks on both sides, with nothing, or, as `none`,
behind the string. -/
inductive RunSearch (lbegin : ℕ) : ℕ → ℕ × ℕ → Option (Option (ℕ × ℕ)) → Prop
  | found {rbegin s} (hend : lend ≤ s.1) : RunSearch lbegin rbegin s (some (some s))
  | missing {rbegin s} (hlt : s.1 < lend) (hend : rend ≤ s.2) :
      RunSearch lbegin rbegin s (some none)
  | outside {rbegin s} (hlt : s.1 < lend ∧ s.2 < rend)
      (hout : (chunkForward op l s.1 lend r s.2 rend).result = .outside) :
      RunSearch lbegin rbegin s none
  | chunk {rbegin s o} (hlt : s.1 < lend ∧ s.2 < rend)
      (hyes : (chunkForward op l s.1 lend r s.2 rend).result = .yes)
      (hnext : RunSearch lbegin rbegin (behindChunks op l lend r rend s) o) :
      RunSearch lbegin rbegin s o
  | later {rbegin s o} (hlt : s.1 < lend ∧ s.2 < rend)
      (hyes : (chunkForward op l s.1 lend r s.2 rend).result ≠ .yes)
      (hout : (chunkForward op l s.1 lend r s.2 rend).result ≠ .outside)
      (hnext : RunSearch lbegin (chunkEnd r rbegin rend + delimiterLen)
        (lbegin, chunkEnd r rbegin rend + delimiterLen) o) : RunSearch lbegin rbegin s o

/-- The outer loop of `_z_keyexpr_special` is lost: the runs of chunks in front are found, and then
a `**` is right there, or the search for the next run leaves the string. -/
inductive RunsLost : ℕ × ℕ → Prop
  | stands {s} (hlt : s.1 < lend) (hstar : specialSegmentEnd l s.1 lend ≤ s.1) : RunsLost s
  | outside {s} (hlt : s.1 < lend)
      (hrun : RunSearch op l (specialSegmentEnd l s.1 lend) r rend s.1 s.2 s none) : RunsLost s
  | found {s t} (hlt : s.1 < lend)
      (hrun : RunSearch op l (specialSegmentEnd l s.1 lend) r rend s.1 s.2 s (some (some t)))
      (hnext : RunsLost t) : RunsLost s

end Special

/-- `_z_keyexpr_special` is lost. For `_z_keyexpr_intersects` the right side has no `**`. -/
def SpecialLost (op : MatchOp) (l : Bytes) (lbegin lend : ℕ) (r : Bytes) (rbegin rend : ℕ) : Prop :=
  (op.typeIntersects && (keyexprGetNextDoubleStarChunk r rbegin rend).isSome) = false ∧
    RunsLost op l lend r rend (lbegin, rbegin)

/-- `_z_keyexpr_backward` is lost: behind chunks that match off the back there is a `**`, of the
left side or of the right one, in front of which the rest is lost as `left` or `right` says. -/
inductive BackwardLost (op : MatchOp) (l : Bytes) (lbegin : ℕ) (r : Bytes) (rbegin : ℕ)
    (left right : ℕ → ℕ → Prop) : ℕ × ℕ → Prop
  | chunk {s} (hlt : lbegin < s.1 ∧ rbegin < s.2)
      (hyes : (chunkBackward op l lbegin s.1 r rbegin s.2).result = .yes)
      (hmore : lbegin ≠ (chunkBackward op l lbegin s.1 r rbegin s.2).lbegin ∧
        rbegin ≠ (chunkBackward op l lbegin s.1 r rbegin s.2).rbegin)
      (hnext : BackwardLost op l lbegin r rbegin left right
        ((chunkBackward op l lbegin s.1 r rbegin s.2).lbegin - delimiterLen,
          (chunkBackward op l lbegin s.1 r rbegin s.2).rbegin - delimiterLen)) :
      BackwardLost op l lbegin r rbegin left right s
  | left {s} (hlt : lbegin < s.1 ∧ rbegin < s.2)
      (hstar : (chunkBackward op l lbegin s.1 r rbegin s.2).result = .leftSuperwild)
      (hrest : left s.1 s.2) : BackwardLost op l lbegin r rbegin left right s
  | right {s} (hlt : lbegin < s.1 ∧ rbegin < s.2) (hop : op = .intersects)
      (hstar : (chunkBackward op l lbegin s.1 r rbegin s.2).result = .rightSuperwild)
      (hrest : right s.1 s.2) : BackwardLost op l lbegin r rbegin left right s

/-- `_z_keyexpr_forward` is lost: behind chunks that match off the front a comparison leaves the
string, or there is a `**`, of the left side or of the right one, and what is behind it is lost as
`backward` says. -/
inductive ForwardLost (op : MatchOp) (l : Bytes) (lend : ℕ) (r : Bytes) (rend : ℕ)
    (backward : Bytes → ℕ → ℕ → Bytes → ℕ → ℕ → Prop) : ℕ × ℕ → Prop
  | chunk {s} (hlt : s.1 < lend ∧ s.2 < rend)
      (hyes : (chunkForward op l s.1 lend r s.2 rend).result = .yes)
      (hnext : ForwardLost op l lend r rend backward (behindChunks op l lend r rend s)) :
      ForwardLost op l lend r rend backward s
  | outside {s} (hlt : s.1 < lend ∧ s.2 < rend)
      (hout : (chunkForward op l s.1 lend r s.2 rend).result = .outside) :
      ForwardLost op l lend r rend backward s
  | left {s} (hlt : s.1 < lend ∧ s.2 < rend)
      (hstar : (chunkForward op l s.1 lend r s.2 rend).result = .leftSuperwild)
      (hmore : s.1 + doubleStarLen ≠ lend)
      (hrest : backward l (s.1 + doubleStarLen + delimiterLen) lend r s.2 rend) :
      ForwardLost op l lend r rend backward s
  | right {s} (hlt : s.1 < lend ∧ s.2 < rend) (hop : op = .intersects)
      (hstar : (chunkForward op l s.1 lend r s.2 rend).result = .rightSuperwild)
      (hmore : s.2 + doubleStarLen ≠ rend)
      (hrest : backward r (s.2 + doubleStarLen + delimiterLen) rend l s.1 lend) :
      ForwardLost op l lend r rend backward s

/-- Two parts without `@` are lost: chunks match off the front up to a `**`, and off the back down
to another `**` of the same side, and what is left is lost in `_z_keyexpr_special`. -/
def PlainLost (op : MatchOp) (l : Bytes) (lbegin lend : ℕ) (r : Bytes) (rbegin rend : ℕ) : Prop :=
  ForwardLost op l lend r rend (fun l lb le r rb re ↦ BackwardLost op l lb r rb
    (fun le re ↦ SpecialLost op l lb (le - doubleStarLen - delimiterLen) r rb re)
    (fun _ _ ↦ False) (le, re)) (lbegin, rbegin)

/-- Where `_z_keyexpr_parts` ends a part, given where it starts and where an `@` was found. -/
def partEnd (pbegin pverbatim : ℕ) : ℕ :=
  if pverbatim = pbegin then pbegin else pverbatim - delimiterLen

/-- `_z_keyexpr_forward` accepts two parts without `@`. -/
def PartAccepted (op : MatchOp) (l : Bytes) (lbegin lend : ℕ) (r : Bytes)
    (rbegin rend : ℕ) : Prop :=
  ∃ n, keyexprForward op n l lbegin lend r rbegin rend false = some true

/-- `_z_keyexpr_parts` is lost: the parts in front are accepted, together with the chunks that
begin at their `@`, and then the last parts are lost, the parts in front of the next `@`, or the
comparison of the chunks that begin there. -/
inductive PartsLost (op : MatchOp) (l : Bytes) (lend : ℕ) (r : Bytes) (rend : ℕ) : ℕ × ℕ → Prop
  | last {s} (hlt : s.1 < lend ∧ s.2 < rend) (hl : keyexprGetNextVerbatimChunk l s.1 lend = none)
      (hr : keyexprGetNextVerbatimChunk r s.2 rend = none)
      (hlost : PlainLost op l s.1 lend r s.2 rend) : PartsLost op l lend r rend s
  | front {s v u} (hlt : s.1 < lend ∧ s.2 < rend)
      (hl : keyexprGetNextVerbatimChunk l s.1 lend = some v)
      (hr : keyexprGetNextVerbatimChunk r s.2 rend = some u)
      (hlost : PlainLost op l s.1 (partEnd s.1 v) r s.2 (partEnd s.2 u)) :
      PartsLost op l lend r rend s
  | outside {s v u} (hlt : s.1 < lend ∧ s.2 < rend)
      (hl : keyexprGetNextVerbatimChunk l s.1 lend = some v)
      (hr : keyexprGetNextVerbatimChunk r s.2 rend = some u)
      (haccepted : PartAccepted op l s.1 (partEnd s.1 v) r s.2 (partEnd s.2 u))
      (hout : (chunkForward op l v lend r u rend).result = .outside) : PartsLost op l lend r rend s
  | chunk {s v u} (hlt : s.1 < lend ∧ s.2 < rend)
      (hl : keyexprGetNextVerbatimChunk l s.1 lend = some v)
      (hr : keyexprGetNextVerbatimChunk r s.2 rend = some u)
      (haccepted : PartAccepted op l s.1 (partEnd s.1 v) r s.2 (partEnd s.2 u))
      (hyes : (chunkForward op l v lend r u rend).result = .yes)
      (hnext : PartsLost op l lend r rend (behindChunks op l lend r rend (v, u))) :
      PartsLost op l lend r rend s

/-- The matchers are lost in two strings that are not taken for the same: chunks match off the front
up to a `**`, and off the back down to a `**`, and the parts in between are lost. -/
def Lost (op : MatchOp) (l r : Bytes) : Prop :=
  sameKeyexpr l r = false ∧ ForwardLost op l l.length r r.length
    (fun l lb le r rb re ↦ BackwardLost op l lb r rb
      (fun le re ↦ PartsLost op l le r re (lb - doubleStarLen - delimiterLen, rb))
      (fun le re ↦ PartsLost op l le r re (lb - doubleStarLen - delimiterLen, rb)) (le, re)) (0, 0)

/-! ### Each pass takes bytes off -/

section Pointers

variable {op : MatchOp} {l r : Bytes} {lb le rb re : ℕ}

end Pointers

/-! ### In every other case there is an answer -/

section Special

variable {op : MatchOp} {l r : Bytes} {lb le rb re : ℕ}

theorem RunSearch.computes {s : ℕ × ℕ} {o : Option (Option (ℕ × ℕ))}
    (h : RunSearch op l le r re lb rb s o) :
    LoopComputes (fun _ ↦ specialSegmentPass op l lb le r re) (s.1, rb, s.2) o := by
  induction h with
  | found hend =>
    refine loopComputes_exit fun _ ↦ ?_
    simp only [specialSegmentPass]
    rw [if_neg (Nat.not_lt.mpr hend)]
  | missing hlt hend =>
    refine loopComputes_exit fun _ ↦ ?_
    simp only [specialSegmentPass]
    rw [if_pos hlt, if_pos hend]
  | outside hlt hout =>
    refine loopComputes_stuck (computes_const fun _ ↦ ?_)
    simp only [specialSegmentPass]
    rw [if_pos hlt.1, if_neg (Nat.not_le.mpr hlt.2), hout]
    rfl
  | chunk hlt hyes _ ih =>
    refine loopComputes_next (computes_const fun _ ↦ ?_) ih
    simp only [specialSegmentPass]
    rw [if_pos hlt.1, if_neg (Nat.not_le.mpr hlt.2), if_pos hyes]
    rfl
  | later hlt hyes hout _ ih =>
    refine loopComputes_next (computes_const fun _ ↦ ?_) ih
    simp only [specialSegmentPass]
    rw [if_pos hlt.1, if_neg (Nat.not_le.mpr hlt.2), if_neg hyes, if_neg hout]

theorem RunSearch.unique {s : ℕ × ℕ} {o o' : Option (Option (ℕ × ℕ))}
    (h : RunSearch op l le r re lb rb s o) (h' : RunSearch op l le r re lb rb s o') : o = o' :=
  h.computes.computes.unique h'.computes.computes

end Special

section Calls

variable {op : MatchOp} {l r : Bytes} {lb le rb re : ℕ} {cv : Bool}

end Calls

end ZenohPico.Keyexpr
