import ZenohPico.Foundations.FuelLoop
import ZenohPico.Keyexpr.ChunkMatch

/-!
The key expression matchers of `keyexpr_match_template.h` and their two callers in `keyexpr.c`.
Nothing in these four loops bounds the number of passes, so each runs on a budget: a call that uses
it up answers `none`. The budget is also what the calls between the matchers are nested by. A call
that reads behind the end of a string has no answer on any budget.
-/

namespace ZenohPico.Keyexpr

open Foundations

/-- The test every matcher ends with: what is left over on each side is nothing, or a `**` that may
stand for nothing. -/
def leftoversMatch (op : MatchOp) (l : Bytes) (lbegin lend : ℕ) (r : Bytes) (rbegin rend : ℕ) :
    Bool :=
  (decide (lend ≤ lbegin) || keyexprIsDoubleStar l lbegin lend) &&
    (decide (rend ≤ rbegin) || (op.typeIntersects && keyexprIsDoubleStar r rbegin rend))

/-- A pass of the inner loop of `_z_keyexpr_special`, over `lcbegin`, `rbegin` and `rcbegin`. The
loop is left with `none` for the `return false` in it, and else with `lcbegin` and `rcbegin`. -/
def specialSegmentPass (op : MatchOp) (l : Bytes) (lbegin lcend : ℕ) (r : Bytes) (rend : ℕ) :
    ℕ × ℕ × ℕ → Option (Pass (ℕ × ℕ × ℕ) (Option (ℕ × ℕ)))
  | (lcbegin, rbegin, rcbegin) =>
    if lcbegin < lcend then
      if rend ≤ rcbegin then some (.done none)
      else
        let res := chunkForward op l lcbegin lcend r rcbegin rend
        if res.result = .yes then
          some (.next (res.lend + delimiterLen, rbegin, res.rend + delimiterLen))
        else if res.result = .outside then none
        else
          let rbegin := chunkEnd r rbegin rend + delimiterLen
          some (.next (lbegin, rbegin, rbegin))
    else some (.done (some (lcbegin, rcbegin)))

/-- `lcend` of the outer loop of `_z_keyexpr_special`: one byte before the next `**`, or the end. -/
def specialSegmentEnd (l : Bytes) (lbegin lend : ℕ) : ℕ :=
  match keyexprGetNextDoubleStarChunk l lbegin lend with
  | some p => p - delimiterLen
  | none => lend

/-- How the outer loop of `_z_keyexpr_special` goes on from the way its inner loop was left. -/
def specialOutcome : Option (ℕ × ℕ) → Pass (ℕ × ℕ) Bool
  | none => .done false
  | some (lcbegin, rcbegin) => .next (lcbegin, rcbegin)

/-- A pass of the outer loop of `_z_keyexpr_special`, over `lbegin` and `rbegin`. -/
def specialPass (op : MatchOp) (l : Bytes) (lend : ℕ) (r : Bytes) (rend : ℕ) (fuel : ℕ) :
    ℕ × ℕ → Option (Pass (ℕ × ℕ) Bool)
  | (lbegin, rbegin) =>
    if lbegin < lend then
      (runLoop (specialSegmentPass op l lbegin (specialSegmentEnd l lbegin lend) r rend) fuel
        (lbegin, rbegin, rbegin)).map specialOutcome
    else some (.done true)

/-- `_z_keyexpr_special`. -/
def keyexprSpecial (op : MatchOp) (fuel : ℕ) (l : Bytes) (lbegin lend : ℕ) (r : Bytes)
    (rbegin rend : ℕ) : Option Bool :=
  if op.typeIntersects && (keyexprGetNextDoubleStarChunk r rbegin rend).isSome then some true
  else runLoop (specialPass op l lend r rend fuel) fuel (lbegin, rbegin)

/-- A pass of the loop of `_z_keyexpr_backward`, over `lend` and `rend`. `parts` is the call to
`_z_keyexpr_parts` and `special` the call to `_z_keyexpr_special`. -/
def backwardPass (op : MatchOp) (l : Bytes) (lbegin : ℕ) (r : Bytes) (rbegin : ℕ)
    (canHaveVerbatim : Bool) (parts special : ℕ → ℕ → ℕ → ℕ → Option Bool) :
    ℕ × ℕ → Option (Pass (ℕ × ℕ) Bool)
  | (lend, rend) =>
    if lbegin < lend ∧ rbegin < rend then
      let res := chunkBackward op l lbegin lend r rbegin rend
      match res.result with
      | .no => some (.done false)
      | .yes =>
        let leftExhausted := lbegin == res.lbegin
        let rightExhausted := rbegin == res.rbegin
        if leftExhausted && rightExhausted then some (.done true)
        else if leftExhausted then
          some (.done (!canHaveVerbatim ||
            (keyexprGetNextVerbatimChunk r rbegin (res.rbegin - delimiterLen)).isNone))
        else if rightExhausted then some (.done false)
        else some (.next (res.lbegin - delimiterLen, res.rbegin - delimiterLen))
      | .leftSuperwild =>
        if canHaveVerbatim then
          (parts (lbegin - doubleStarLen - delimiterLen) lend rbegin rend).map .done
        else (special lbegin (lend - doubleStarLen - delimiterLen) rbegin rend).map .done
      | .rightSuperwild =>
        if op.typeIncludes then some (.done false)
        else if canHaveVerbatim then
          (parts (lbegin - doubleStarLen - delimiterLen) lend rbegin rend).map .done
        else some (.done true)
      | .outside => none
    else some (.done (leftoversMatch op l lbegin lend r rbegin rend))

/-- A pass of the loop of `_z_keyexpr_forward`, over `lbegin` and `rbegin`. `backwardLeft` is the
call to `_z_keyexpr_backward` with the left key expression first, `backwardRight` the one with the
right key expression first. -/
def forwardPass (op : MatchOp) (l : Bytes) (lend : ℕ) (r : Bytes) (rend : ℕ)
    (backwardLeft backwardRight : ℕ → ℕ → ℕ → ℕ → Option Bool) : ℕ × ℕ → Option (Pass (ℕ × ℕ) Bool)
  | (lbegin, rbegin) =>
    if lbegin < lend ∧ rbegin < rend then
      let res := chunkForward op l lbegin lend r rbegin rend
      match res.result with
      | .yes => some (.next (res.lend + delimiterLen, res.rend + delimiterLen))
      | .leftSuperwild =>
        if lbegin + doubleStarLen = lend then
          some (.done (keyexprGetNextVerbatimChunk r rbegin rend).isNone)
        else
          (backwardLeft (lbegin + doubleStarLen + delimiterLen) lend rbegin rend).map .done
      | .rightSuperwild =>
        if op.typeIntersects then
          if rbegin + doubleStarLen = rend then
            some (.done (keyexprGetNextVerbatimChunk l lbegin lend).isNone)
          else
            (backwardRight (rbegin + doubleStarLen + delimiterLen) rend lbegin lend).map .done
        else some (.done false)
      | .no => some (.done false)
      | .outside => none
    else some (.done (leftoversMatch op l lbegin lend r rbegin rend))

/-- A pass of the loop of `_z_keyexpr_parts`, over `lbegin` and `rbegin`. `forward` is the call to
`_z_keyexpr_forward` that rules verbatim chunks out. -/
def partsPass (op : MatchOp) (l : Bytes) (lend : ℕ) (r : Bytes) (rend : ℕ)
    (forward : ℕ → ℕ → ℕ → ℕ → Option Bool) : ℕ × ℕ → Option (Pass (ℕ × ℕ) Bool)
  | (lbegin, rbegin) =>
    if lbegin < lend ∧ rbegin < rend then
      match keyexprGetNextVerbatimChunk l lbegin lend,
          keyexprGetNextVerbatimChunk r rbegin rend with
      | none, none => (forward lbegin lend rbegin rend).map .done
      | some lverbatim, some rverbatim =>
        let lskend := if lverbatim = lbegin then lbegin else lverbatim - delimiterLen
        let rskend := if rverbatim = rbegin then rbegin else rverbatim - delimiterLen
        (forward lbegin lskend rbegin rskend).bind fun
          | false => some (.done false)
          | true =>
            let res := chunkForward op l lverbatim lend r rverbatim rend
            match res.result with
            | .yes => some (.next (res.lend + delimiterLen, res.rend + delimiterLen))
            | .outside => none
            | _ => some (.done false)
      | _, _ => some (.done false)
    else some (.done (leftoversMatch op l lbegin lend r rbegin rend))

mutual

/-- `_z_keyexpr_backward`. -/
def keyexprBackward (op : MatchOp) (fuel : ℕ) (l : Bytes) (lbegin lend : ℕ) (r : Bytes)
    (rbegin rend : ℕ) (canHaveVerbatim : Bool) : Option Bool :=
  match fuel with
  | 0 => none
  | fuel + 1 =>
    runLoop
      (backwardPass op l lbegin r rbegin canHaveVerbatim
        (fun lb le rb re ↦ keyexprParts op fuel l lb le r rb re)
        (fun lb le rb re ↦ keyexprSpecial op fuel l lb le r rb re))
      fuel (lend, rend)

/-- `_z_keyexpr_forward`. -/
def keyexprForward (op : MatchOp) (fuel : ℕ) (l : Bytes) (lbegin lend : ℕ) (r : Bytes)
    (rbegin rend : ℕ) (canHaveVerbatim : Bool) : Option Bool :=
  match fuel with
  | 0 => none
  | fuel + 1 =>
    runLoop
      (forwardPass op l lend r rend
        (fun lb le rb re ↦ keyexprBackward op fuel l lb le r rb re canHaveVerbatim)
        (fun rb re lb le ↦ keyexprBackward op fuel r rb re l lb le canHaveVerbatim))
      fuel (lbegin, rbegin)

/-- `_z_keyexpr_parts`. -/
def keyexprParts (op : MatchOp) (fuel : ℕ) (l : Bytes) (lbegin lend : ℕ) (r : Bytes)
    (rbegin rend : ℕ) : Option Bool :=
  match fuel with
  | 0 => none
  | fuel + 1 =>
    runLoop
      (partsPass op l lend r rend
        (fun lb le rb re ↦ keyexprForward op fuel l lb le r rb re false))
      fuel (lbegin, rbegin)

end

/-- `strncmp` of `n` bytes answers zero: it stops at a terminator common to both. -/
def strncmpEq : Bytes → Bytes → ℕ → Bool
  | _, _, 0 => true
  | l, r, n + 1 =>
    let a := l.headD 0
    let b := r.headD 0
    if a ≠ b then false else if a = 0 then true else strncmpEq l.tail r.tail n

/-- The shortcut at the head of both callers. -/
def sameKeyexpr (l r : Bytes) : Bool :=
  l.length == r.length && strncmpEq l r l.length

/-- The common body of `_z_keyexpr_intersects` and `_z_keyexpr_includes`. -/
def keyexprMatch (op : MatchOp) (l r : Bytes) (fuel : ℕ) : Option Bool :=
  if sameKeyexpr l r then some true
  else keyexprForward op fuel l 0 l.length r 0 r.length true

/-- `_z_keyexpr_intersects`. -/
def keyexprIntersects (l r : Bytes) (fuel : ℕ) : Option Bool := keyexprMatch .intersects l r fuel

/-- `_z_keyexpr_includes`. -/
def keyexprIncludes (l r : Bytes) (fuel : ℕ) : Option Bool := keyexprMatch .includes l r fuel

end ZenohPico.Keyexpr
