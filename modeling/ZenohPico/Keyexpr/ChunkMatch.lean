import Mathlib.Data.List.GetD
import Mathlib.Tactic.Common

/-!
The chunk matchers of `keyexpr_match_template.h`: one chunk of a left key expression against one
chunk of a right one, read forward from the start of both or backward from their end.

A key expression is its bytes, and a pointer into it is an index. A pointer that runs backward past
the first byte is kept one byte ahead (`llast` of the source is `lend - 1` here), so that every
pointer stays a natural number. The two instances of the template, `intersects` and `includes`, are
one definition with the template's switch as its first argument.
-/

namespace ZenohPico.Keyexpr

/-- The bytes of a string, without its terminator. -/
abbrev Bytes := List UInt8

/-- `_Z_VERBATIM`, the byte `@`. -/
def verbatim : UInt8 := 64
/-- `_Z_DELIMITER`, the byte `/`. -/
def delimiter : UInt8 := 47
/-- `_Z_STAR`, the byte `*`. -/
def star : UInt8 := 42
/-- `_Z_DSL0`, the byte `$` that opens a `$*`. -/
def dsl0 : UInt8 := 36
/-- `_Z_DSL1`, the byte `*` that closes a `$*`. -/
def dsl1 : UInt8 := 42
/-- `_Z_DELIMITER_LEN`. -/
def delimiterLen : ℕ := 1
/-- `_Z_DSL_LEN`. -/
def dslLen : ℕ := 2
/-- `_Z_DOUBLE_STAR_LEN`. -/
def doubleStarLen : ℕ := 2

/-! ### Reading bytes -/

/-- The byte a pointer points at. -/
def byteAt (s : Bytes) (p : ℕ) : UInt8 := s.getD p 0

/-- `memchr` over the `n` bytes at `p`. -/
def memchr (s : Bytes) (c : UInt8) : ℕ → ℕ → Option ℕ
  | _, 0 => none
  | p, n + 1 => if byteAt s p = c then some p else memchr s c (p + 1) n

/-- `memcmp` of `n` bytes answers zero. -/
def memcmpEq (r : Bytes) (l : Bytes) : ℕ → ℕ → ℕ → Bool
  | _, _, 0 => true
  | rp, lp, n + 1 => byteAt r rp == byteAt l lp && memcmpEq r l (rp + 1) (lp + 1) n

theorem memchr_bounds {s : Bytes} {c : UInt8} {p n q : ℕ} (h : memchr s c p n = some q) :
    p ≤ q ∧ q < p + n := by
  induction n generalizing p with
  | zero => simp [memchr] at h
  | succ n ih =>
    rw [memchr] at h
    split_ifs at h
    · simp only [Option.some.injEq] at h
      omega
    · have := ih h
      omega

/-- `_z_chunk_end`, for a region that begins before its end. -/
def chunkEnd (s : Bytes) (pbegin pend : ℕ) : ℕ :=
  (memchr s delimiter pbegin (pend - pbegin)).getD pend

/-- `_z_chunk_end`, for any region. A region that ends before it begins has a huge size, so that
`memchr` goes on behind it, and where no `/` follows in the string it goes on behind the string. -/
def chunkEndBehind (s : Bytes) (pbegin pend : ℕ) : Option ℕ :=
  if pbegin ≤ pend then some (chunkEnd s pbegin pend)
  else memchr s delimiter pbegin (s.length - pbegin)

/-- `_z_chunk_begin`, with `last + 1` of the source as the running pointer. -/
def chunkBegin (s : Bytes) (pbegin : ℕ) : ℕ → ℕ
  | 0 => 0
  | last + 1 =>
    if pbegin ≤ last ∧ byteAt s last ≠ delimiter then chunkBegin s pbegin last else last + 1

/-- `_z_keyexpr_is_double_star`. -/
def keyexprIsDoubleStar (s : Bytes) (pbegin pend : ℕ) : Bool :=
  pend - pbegin == 2 && byteAt s pbegin == star && byteAt s (pbegin + 1) == star

/-- `_z_chunk_contains_stardsl`. -/
def chunkContainsStardsl (s : Bytes) (pbegin pend : ℕ) : Bool :=
  (memchr s dsl0 pbegin (pend - pbegin)).isSome

/-- `_z_chunk_is_stardsl`. -/
def chunkIsStardsl (s : Bytes) (pbegin kend : ℕ) : Bool :=
  byteAt s pbegin == dsl0 && (pbegin + dslLen == kend || byteAt s (pbegin + 2) == delimiter)

/-- `_z_chunk_is_stardsl_backward`, with `last + 1` of the source as its second pointer. -/
def chunkIsStardslBackward (s : Bytes) (kbegin pend : ℕ) : Bool :=
  byteAt s (pend - 1) == dsl1 &&
    (pend - 1 == kbegin + 1 || (decide (kbegin + 1 < pend - 1) && byteAt s (pend - 3) == delimiter))

/-- `_z_keyexpr_get_next_double_star_chunk`. -/
def keyexprGetNextDoubleStarChunk (s : Bytes) (pbegin pend : ℕ) : Option ℕ :=
  if pbegin + 1 < pend then
    match _h : memchr s star pbegin (pend - pbegin - 1) with
    | none => none
    | some c =>
      if byteAt s (c + 1) = star then some c
      else keyexprGetNextDoubleStarChunk s (c + doubleStarLen) pend
  else none
termination_by pend - pbegin
decreasing_by
  have := memchr_bounds (by assumption)
  simp only [doubleStarLen]
  omega

/-- `_z_keyexpr_get_next_verbatim_chunk`. -/
def keyexprGetNextVerbatimChunk (s : Bytes) (pbegin pend : ℕ) : Option ℕ :=
  memchr s verbatim pbegin (pend - pbegin)

/-! ### Searching one chunk for the subchunks of another -/

/-- The inner loop of `_z_chunk_right_contains_all_stardsl_subchunks_of_left`: the first place from
`rbegin` on that holds the `clen` bytes at `lbegin`, moved past them. -/
def subchunkSearch (l : Bytes) (lbegin clen : ℕ) (r : Bytes) (rbegin rend : ℕ) : Option ℕ :=
  if rbegin + clen ≤ rend then
    if memcmpEq r l rbegin lbegin clen then some (rbegin + clen)
    else subchunkSearch l lbegin clen r (rbegin + 1) rend
  else none
termination_by rend + 1 - rbegin

/-- `_z_chunk_right_contains_all_stardsl_subchunks_of_left`. -/
def chunkRightContainsAllStardslSubchunksOfLeft (l : Bytes) (lbegin lend : ℕ) (r : Bytes)
    (rbegin rend : ℕ) : Bool :=
  match _h : memchr l dsl0 lbegin (lend - lbegin) with
  | none => (subchunkSearch l lbegin (lend - lbegin) r rbegin rend).isSome
  | some nextDsl =>
    match subchunkSearch l lbegin (nextDsl - lbegin) r rbegin rend with
    | none => false
    | some rbegin' =>
      chunkRightContainsAllStardslSubchunksOfLeft l (lbegin + (nextDsl - lbegin) + dslLen) lend r
        rbegin' rend
termination_by lend - lbegin
decreasing_by
  have := memchr_bounds (by assumption)
  simp only [dslLen]
  omega

/-! ### The template -/

/-- The two instances of the match template. -/
inductive MatchOp
  | intersects
  | includes
  deriving DecidableEq, Repr

/-- `_ZP_KE_MATCH_TYPE_INTERSECTS`. -/
def MatchOp.typeIntersects : MatchOp → Bool
  | .intersects => true
  | .includes => false

/-- `_ZP_KE_MATCH_TYPE_INCLUDES`. -/
def MatchOp.typeIncludes (op : MatchOp) : Bool := !op.typeIntersects

/-- `_z_chunk_match_result_t`, with `outside` for a call that reads behind the end of its string. -/
inductive ChunkMatchResult
  | no
  | yes
  | leftSuperwild
  | rightSuperwild
  | outside
  deriving DecidableEq, Repr

/-- `_z_chunk_forward_match_data_t`. -/
structure ChunkForwardMatchData where
  result : ChunkMatchResult
  lend : ℕ
  rend : ℕ
  deriving DecidableEq, Repr

/-- `_z_chunk_backward_match_data_t`. -/
structure ChunkBackwardMatchData where
  result : ChunkMatchResult
  lbegin : ℕ
  rbegin : ℕ
  deriving DecidableEq, Repr

/-- `YES` or `NO` from a test. -/
def ChunkMatchResult.ofBool (answer : Bool) : ChunkMatchResult := if answer then .yes else .no

/-- `_z_chunk_special`. -/
def chunkSpecial (op : MatchOp) (l : Bytes) (lbegin lend : ℕ) (r : Bytes) (rbegin rend : ℕ) :
    Bool :=
  (op.typeIntersects && chunkContainsStardsl r rbegin rend) ||
    chunkRightContainsAllStardslSubchunksOfLeft l lbegin lend r rbegin rend

/-- The loop of `_z_chunk_forward_backward` and the test after it. -/
def chunkForwardBackwardLoop (op : MatchOp) (l : Bytes) (lbegin : ℕ) (r : Bytes) (rbegin : ℕ)
    (lend rend : ℕ) : ChunkMatchResult :=
  if lbegin < lend ∧ rbegin < rend then
    if op.typeIntersects ∧ byteAt r (rend - 1) = dsl1 then .yes
    else if byteAt l (lend - 1) = dsl1 then
      .ofBool (chunkSpecial op l lbegin (lend - 1 + 1 - dslLen) r rbegin (rend - 1 + 1))
    else if byteAt l (lend - 1) ≠ byteAt r (rend - 1) then .no
    else chunkForwardBackwardLoop op l lbegin r rbegin (lend - 1) (rend - 1)
  else .ofBool (lbegin == lend)
termination_by lend

/-- `_z_chunk_forward_backward`. The left region ends before it begins where it was cut behind the
`$` of a `$*`. -/
def chunkForwardBackward (op : MatchOp) (l : Bytes) (lbegin lkend : ℕ) (r : Bytes)
    (rbegin rkend : ℕ) : ChunkForwardMatchData :=
  match chunkEndBehind l lbegin lkend with
  | none => { result := .outside, lend := 0, rend := 0 }
  | some lend =>
    let rend := chunkEnd r rbegin rkend
    { result := chunkForwardBackwardLoop op l lbegin r rbegin lend rend, lend, rend }

/-- The loop of `_z_chunk_forward` and the tests after it. -/
def chunkForwardLoop (op : MatchOp) (l : Bytes) (lkend : ℕ) (r : Bytes) (rkend : ℕ)
    (lbegin rbegin : ℕ) : ChunkForwardMatchData :=
  if lbegin < lkend ∧ rbegin < rkend ∧ byteAt l lbegin ≠ delimiter ∧
      byteAt r rbegin ≠ delimiter then
    if byteAt l lbegin = dsl0 then
      chunkForwardBackward op l (lbegin + dslLen) lkend r rbegin rkend
    else if op.typeIntersects ∧ byteAt r rbegin = dsl0 then
      let res := chunkForwardBackward op r (rbegin + dslLen) rkend l lbegin lkend
      { result := res.result, lend := res.rend, rend := res.lend }
    else if byteAt l lbegin ≠ byteAt r rbegin then { result := .no, lend := 0, rend := 0 }
    else chunkForwardLoop op l lkend r rkend (lbegin + 1) (rbegin + 1)
  else
    let leftExhausted := lbegin == lkend || byteAt l lbegin == delimiter
    let rightExhausted := rbegin == rkend || byteAt r rbegin == delimiter
    if leftExhausted && rightExhausted then
      { result := .yes, lend := lbegin, rend := rbegin }
    else if op.typeIntersects && leftExhausted && chunkIsStardsl r rbegin rkend then
      { result := .yes, lend := lbegin, rend := rbegin + dslLen }
    else if rightExhausted && chunkIsStardsl l lbegin lkend then
      { result := .yes, lend := lbegin + dslLen, rend := rbegin }
    else { result := .no, lend := 0, rend := 0 }
termination_by lkend - lbegin

/-- `_z_chunk_forward`. -/
def chunkForward (op : MatchOp) (l : Bytes) (lbegin lkend : ℕ) (r : Bytes) (rbegin rkend : ℕ) :
    ChunkForwardMatchData :=
  let leftIsWild := byteAt l lbegin == star
  let rightIsWild := byteAt r rbegin == star
  let leftIsSuperwild :=
    leftIsWild && decide (lbegin + 2 ≤ lkend) && byteAt l (lbegin + 1) == star
  let rightIsSuperwild :=
    rightIsWild && decide (rbegin + 2 ≤ rkend) && byteAt r (rbegin + 1) == star
  if leftIsSuperwild then { result := .leftSuperwild, lend := 0, rend := 0 }
  else if rightIsSuperwild then
    if op.typeIncludes then { result := .no, lend := 0, rend := 0 }
    else { result := .rightSuperwild, lend := 0, rend := 0 }
  else if (byteAt l lbegin == verbatim) != (byteAt r rbegin == verbatim) then
    { result := .no, lend := 0, rend := 0 }
  else if leftIsWild then
    { result := .yes, lend := lbegin + 1, rend := chunkEnd r rbegin rkend }
  else if rightIsWild then
    if op.typeIncludes then { result := .no, lend := 0, rend := 0 }
    else { result := .yes, lend := chunkEnd l lbegin lkend, rend := rbegin + 1 }
  else chunkForwardLoop op l lkend r rkend lbegin rbegin

/-- The loop of `_z_chunk_backward_forward` and the test after it. -/
def chunkBackwardForwardLoop (op : MatchOp) (l : Bytes) (lend : ℕ) (r : Bytes) (rend : ℕ)
    (lbegin rbegin : ℕ) : ChunkMatchResult :=
  if lbegin < lend ∧ rbegin < rend then
    if op.typeIntersects ∧ byteAt r rbegin = dsl0 then .yes
    else if byteAt l lbegin = dsl0 then .ofBool (chunkSpecial op l (lbegin + 2) lend r rbegin rend)
    else if byteAt l lbegin ≠ byteAt r rbegin then .no
    else chunkBackwardForwardLoop op l lend r rend (lbegin + 1) (rbegin + 1)
  else .ofBool (lbegin == lend)
termination_by lend - lbegin

/-- `_z_chunk_backward_forward`. -/
def chunkBackwardForward (op : MatchOp) (l : Bytes) (lkbegin lend : ℕ) (r : Bytes)
    (rkbegin rend : ℕ) : ChunkBackwardMatchData :=
  let lbegin := chunkBegin l lkbegin lend
  let rbegin := chunkBegin r rkbegin rend
  if (byteAt l lbegin == verbatim) != (byteAt r rbegin == verbatim) then
    { result := .no, lbegin := 0, rbegin := 0 }
  else
    { result := chunkBackwardForwardLoop op l lend r rend lbegin rbegin, lbegin, rbegin }

/-- The loop of `_z_chunk_backward` and the tests after it, with `llast + 1` and `rlast + 1` of the
source as the running pointers. -/
def chunkBackwardLoop (op : MatchOp) (l : Bytes) (lkbegin : ℕ) (r : Bytes) (rkbegin : ℕ)
    (lend rend : ℕ) : ChunkBackwardMatchData :=
  if lkbegin < lend ∧ rkbegin < rend ∧ byteAt l (lend - 1) ≠ delimiter ∧
      byteAt r (rend - 1) ≠ delimiter then
    if byteAt l (lend - 1) = dsl1 then
      chunkBackwardForward op l lkbegin (lend - dslLen) r rkbegin rend
    else if op.typeIntersects ∧ byteAt r (rend - 1) = dsl1 then
      let res := chunkBackwardForward op r rkbegin (rend - dslLen) l lkbegin lend
      { result := res.result, lbegin := res.rbegin, rbegin := res.lbegin }
    else if byteAt l (lend - 1) ≠ byteAt r (rend - 1) then { result := .no, lbegin := 0, rbegin := 0 }
    else chunkBackwardLoop op l lkbegin r rkbegin (lend - 1) (rend - 1)
  else
    let leftExhausted := lkbegin == lend || byteAt l (lend - 1) == delimiter
    let rightExhausted := rkbegin == rend || byteAt r (rend - 1) == delimiter
    if leftExhausted && rightExhausted then
      { result := .yes, lbegin := lend, rbegin := rend }
    else if op.typeIntersects && leftExhausted && chunkIsStardslBackward r rkbegin rend then
      { result := .yes, lbegin := lend, rbegin := rend - dslLen }
    else if rightExhausted && chunkIsStardslBackward l lkbegin lend then
      { result := .yes, lbegin := lend - dslLen, rbegin := rend }
    else { result := .no, lbegin := 0, rbegin := 0 }
termination_by lend

/-- `_z_chunk_backward`. -/
def chunkBackward (op : MatchOp) (l : Bytes) (lkbegin lend : ℕ) (r : Bytes) (rkbegin rend : ℕ) :
    ChunkBackwardMatchData :=
  let leftIsWild := byteAt l (lend - 1) == star
  let rightIsWild := byteAt r (rend - 1) == star
  let leftIsSuperwild :=
    leftIsWild && decide (lkbegin + 2 ≤ lend) && byteAt l (lend - 1 - 1) == star
  let rightIsSuperwild :=
    rightIsWild && decide (rkbegin + 2 ≤ rend) && byteAt r (rend - 1 - 1) == star
  if leftIsSuperwild then { result := .leftSuperwild, lbegin := 0, rbegin := 0 }
  else if rightIsSuperwild then
    if op.typeIncludes then { result := .no, lbegin := 0, rbegin := 0 }
    else { result := .rightSuperwild, lbegin := 0, rbegin := 0 }
  else if leftIsWild && (lkbegin == lend - 1 || byteAt l (lend - 1 - 1) == delimiter) then
    let rbegin := chunkBegin r rkbegin rend
    { result := .ofBool (byteAt r rbegin != verbatim), lbegin := lend - 1, rbegin }
  else if rightIsWild && (rkbegin == rend - 1 || byteAt r (rend - 1 - 1) == delimiter) then
    if op.typeIncludes then { result := .no, lbegin := 0, rbegin := 0 }
    else
      let lbegin := chunkBegin l lkbegin lend
      { result := .ofBool (byteAt l lbegin != verbatim), lbegin, rbegin := rend - 1 }
  else chunkBackwardLoop op l lkbegin r rkbegin lend rend

end ZenohPico.Keyexpr
