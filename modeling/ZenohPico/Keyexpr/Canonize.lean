import ZenohPico.Foundations.FuelLoop
import ZenohPico.Keyexpr.Language

/-!
The canonization functions of `keyexpr.c`: the scanner for the canonical prefix of a key expression,
which is also `_z_keyexpr_is_canon`, and the rewriting in place of `_z_keyexpr_canonize`.

The memory a key expression lies in is a list of bytes that starts with it and may go on behind it;
what a pointer reads behind the list is a terminator. Writing through a pointer gives a new list.
-/

namespace ZenohPico.Keyexpr

open Foundations Option

/-- `zp_keyexpr_canon_status_t`. -/
inductive CanonStatus
  | success
  | loneDollarStar
  | singleStarAfterDoubleStar
  | doubleStarAfterDoubleStar
  | emptyChunk
  | starsInChunk
  | dollarAfterDollarOrStar
  | containsSharpOrQmark
  | containsUnboundDollar
  deriving DecidableEq, Repr

/-! ### Scanning bytes -/

/-- The `switch` on one byte, from a value of `in_dollar`: its next value, or an error. -/
def scanByte (inDollar : ℕ) (b : UInt8) : Except CanonStatus ℕ :=
  if b = sharp ∨ b = qmark then .error .containsSharpOrQmark
  else if b = dsl0 then
    if inDollar ≠ 0 then .error .dollarAfterDollarOrStar else .ok (inDollar + 1)
  else if b = star then
    if inDollar ≠ 1 then .error .starsInChunk else .ok (inDollar + 2)
  else
    if inDollar = 1 then .error .containsUnboundDollar else .ok 0

/-- The `for` loop over the `n` bytes at `c`. -/
def scanBytes (s : Bytes) : ℕ → ℕ → ℕ → Except CanonStatus ℕ
  | _, 0, inDollar => .ok inDollar
  | c, n + 1, inDollar => (scanByte inDollar (byteAt s c)).bind (scanBytes s (c + 1) n)

/-- What the scan from `c` to `stop` leaves in `ret`, with the test for a `$` at its end. -/
def scanStatus (s : Bytes) (c stop : ℕ) : CanonStatus :=
  match scanBytes s c (stop - c) 0 with
  | .error status => status
  | .ok inDollar => if inDollar = 1 then .containsUnboundDollar else .success

/-! ### The canonical prefix -/

/-- A pass of the loop of `__zp_canon_prefix` at `chunk_start`: the flag to go on with, or the
status and the length it is left with. -/
def canonPrefixPass (s : Bytes) (len : ℕ) (inBigWild : Bool) (chunkStart : ℕ) :
    Pass Bool (CanonStatus × ℕ) :=
  let chunkStop := chunkEnd s chunkStart len
  let chunkLen := chunkStop - chunkStart
  if chunkLen = 0 then .done (.emptyChunk, len)
  else if chunkLen = 1 then
    if inBigWild ∧ byteAt s chunkStart = star then
      .done (.singleStarAfterDoubleStar, chunkStart - 3)
    else .next inBigWild
  else if chunkLen = 2 ∧ byteAt s (chunkStart + 1) = star ∧ byteAt s chunkStart = dsl0 then
    .done (.loneDollarStar, chunkStart)
  else if chunkLen = 2 ∧ byteAt s (chunkStart + 1) = star ∧ byteAt s chunkStart = star then
    if inBigWild then .done (.doubleStarAfterDoubleStar, chunkStart - 3) else .next true
  else
    match scanStatus s chunkStart chunkStop with
    | .success => .next false
    | status => .done (status, len)

/-- The loop of `__zp_canon_prefix` from `chunk_start` on, with the test behind it. -/
def canonPrefixLoop (s : Bytes) (len : ℕ) (inBigWild : Bool) (chunkStart : ℕ) : CanonStatus × ℕ :=
  match canonPrefixPass s len inBigWild chunkStart with
  | .done result => result
  | .next inBigWild =>
    if chunkEnd s chunkStart len + 1 < len then
      canonPrefixLoop s len inBigWild (chunkEnd s chunkStart len + 1)
    else if chunkEnd s chunkStart len + 1 ≤ len then (.emptyChunk, len)
    else (.success, len)
termination_by len - chunkStart
decreasing_by
  rename_i hlt
  simp only [chunkEnd] at hlt ⊢
  rcases hchr : memchr s delimiter chunkStart (len - chunkStart) with _ | p
  · simp only [hchr, getD_none] at hlt
    omega
  · have := memchr_bounds hchr
    simp only [hchr, getD_some] at hlt ⊢
    omega

/-- `__zp_canon_prefix`: the status and the value left in `len`. -/
def canonPrefix (s : Bytes) (len : ℕ) : CanonStatus × ℕ := canonPrefixLoop s len false 0

/-- `_z_keyexpr_is_canon`. -/
def keyexprIsCanon (s : Bytes) (len : ℕ) : CanonStatus := (canonPrefix s len).1

/-! ### Removing repetitions -/

/-- The bytes at `p` are those of the needle. -/
def needleAt (m : Bytes) : ℕ → Bytes → Bool
  | _, [] => true
  | p, a :: needle => byteAt m p == a && needleAt m (p + 1) needle

/-- `_z_str_startswith`, on a pointer into a longer string. -/
def strStartswith (m : Bytes) (p : ℕ) (needle : Bytes) : ℕ :=
  if needleAt m p needle then needle.length else 0

/-- The first loop of `__zp_singleify`: up to a needle right behind a needle. -/
def singleifyFind (m : Bytes) (stop : ℕ) (needle : Bytes) (reader : ℕ) (rightAfterNeedle : Bool) :
    ℕ × Bool :=
  if reader < stop then
    if strStartswith m reader needle ≠ 0 then
      if rightAfterNeedle then (reader, rightAfterNeedle)
      else singleifyFind m stop needle (reader + strStartswith m reader needle) true
    else singleifyFind m stop needle (reader + 1) false
  else (reader, rightAfterNeedle)
termination_by stop - reader

/-- Copy `n` bytes one by one, from the lowest address on. -/
def copyBytes (m : Bytes) (writer reader : ℕ) : ℕ → Bytes
  | 0 => m
  | n + 1 => copyBytes (m.set writer (byteAt m reader)) (writer + 1) (reader + 1) n

/-- The second loop of `__zp_singleify`: move the rest down over the needles that are dropped. -/
def singleifyWrite (m : Bytes) (stop : ℕ) (needle : Bytes) (reader writer : ℕ)
    (rightAfterNeedle : Bool) : Bytes × ℕ :=
  if reader < stop then
    if strStartswith m reader needle ≠ 0 then
      if rightAfterNeedle then
        singleifyWrite m stop needle (reader + strStartswith m reader needle) writer true
      else
        singleifyWrite (copyBytes m writer reader (strStartswith m reader needle)) stop needle
          (reader + strStartswith m reader needle) (writer + strStartswith m reader needle) true
    else
      singleifyWrite (m.set writer (byteAt m reader)) stop needle (reader + 1) (writer + 1) false
  else (m, writer)
termination_by stop - reader

/-- `__zp_singleify`: the memory and the value left in `len`. -/
def singleify (m : Bytes) (len : ℕ) (needle : Bytes) : Bytes × ℕ :=
  let found := singleifyFind m len needle 0 false
  singleifyWrite m len needle found.1 found.1 found.2

/-! ### Rewriting -/

/-- The `n` bytes at `p`. -/
def readBytes (m : Bytes) (p : ℕ) : ℕ → Bytes
  | 0 => []
  | n + 1 => byteAt m p :: readBytes m (p + 1) n

/-- `memmove` of the given bytes to `p`. -/
def writeBytes (m : Bytes) (p : ℕ) : Bytes → Bytes
  | [] => m
  | a :: c => writeBytes (m.set p a) (p + 1) c

/-- `__zp_ke_write_chunk`: the memory and the writer behind the chunk. The chunk may lie in the
memory that is written to, and is read after the `/` is written. -/
def keWriteChunk (m : Bytes) (writer : ℕ) (chunk : Bytes → Bytes) (writeStart : ℕ) : Bytes × ℕ :=
  let started := if writer ≠ writeStart then (m.set writer delimiter, writer + 1) else (m, writer)
  (writeBytes started.1 started.2 (chunk started.1), started.2 + (chunk started.1).length)

/-- What `_z_keyexpr_canonize` keeps from one chunk to the next. -/
structure CanonState where
  mem : Bytes
  nextSlash : Option ℕ
  writer : ℕ
  inBigWild : Bool
  ret : CanonStatus

/-- Write a chunk in front of the ones still to be read. -/
def CanonState.write (st : CanonState) (chunk : Bytes → Bytes) (writeStart : ℕ) : CanonState :=
  let written := keWriteChunk st.mem st.writer chunk writeStart
  { st with mem := written.1, writer := written.2 }

/-- Write the `**` that is pending, if there is one. -/
def CanonState.writePending (st : CanonState) (writeStart : ℕ) : CanonState :=
  if st.inBigWild then st.write (fun _ ↦ doubleStar) writeStart else st

/-- A pass of the `while` loop of `_z_keyexpr_canonize`, with `next_slash` at `slash`. The scan for
errors runs to the end of the string, not to that of the chunk. -/
def canonizePass (stop writeStart : ℕ) (st : CanonState) (slash : ℕ) : CanonState :=
  let reader := slash + 1
  let nextSlash := memchr st.mem delimiter reader (stop - reader)
  let chunkStop := nextSlash.getD stop
  let chunkLen := chunkStop - reader
  let st := { st with nextSlash }
  if chunkLen = 1 ∧ byteAt st.mem reader = star then st.write (fun _ ↦ starChunk) writeStart
  else if chunkLen = 2 ∧ byteAt st.mem (reader + 1) = star ∧ byteAt st.mem reader = dsl0 then
    st.write (fun _ ↦ starChunk) writeStart
  else if chunkLen = 2 ∧ byteAt st.mem (reader + 1) = star ∧ byteAt st.mem reader = star then
    { st with inBigWild := true }
  else
    let ret := if chunkLen = 0 then .emptyChunk else st.ret
    let ret := if ret = .success then scanStatus st.mem reader stop else ret
    if ret = .success then
      { (st.writePending writeStart).write (fun m ↦ readBytes m reader chunkLen) writeStart with
        inBigWild := false, ret }
    else { st with ret }

theorem CanonState.write_nextSlash (st : CanonState) (chunk : Bytes → Bytes) (writeStart : ℕ) :
    (st.write chunk writeStart).nextSlash = st.nextSlash := rfl

theorem CanonState.writePending_nextSlash (st : CanonState) (writeStart : ℕ) :
    (st.writePending writeStart).nextSlash = st.nextSlash := by
  rw [CanonState.writePending]
  split_ifs <;> rfl

theorem canonizePass_nextSlash (stop writeStart : ℕ) (st : CanonState) (slash : ℕ) :
    (canonizePass stop writeStart st slash).nextSlash =
      memchr st.mem delimiter (slash + 1) (stop - (slash + 1)) := by
  simp only [canonizePass]
  split_ifs <;> simp only [CanonState.write_nextSlash, CanonState.writePending_nextSlash]

/-- The `while` loop of `_z_keyexpr_canonize`. -/
def canonizeLoop (stop writeStart : ℕ) (st : CanonState) : CanonState :=
  match _h : st.nextSlash with
  | none => st
  | some slash => canonizeLoop stop writeStart (canonizePass stop writeStart st slash)
termination_by st.nextSlash.elim 0 fun slash ↦ stop + 1 - slash + 1
decreasing_by
  rw [canonizePass_nextSlash, _h]
  rcases hchr : memchr st.mem delimiter (slash + 1) (stop - (slash + 1)) with _ | p
  · exact Nat.succ_pos _
  · have := memchr_bounds hchr
    simp only [elim_some]
    omega

/-- How a call of `_z_keyexpr_canonize` ends: in a failed assertion, or with a status, the memory
and the value left in `len`. -/
inductive CanonOutcome
  | aborted
  | returned (status : CanonStatus) (mem : Bytes) (len : ℕ)
  deriving DecidableEq, Repr

/-- What `_z_keyexpr_canonize` does behind its first chunk to be rewritten. -/
def canonizeFrom (len writeStart : ℕ) (st : CanonState) : CanonOutcome :=
  let st := canonizeLoop len writeStart st
  if st.ret = .success then
    let st := st.writePending writeStart
    .returned .success st.mem st.writer
  else .returned st.ret st.mem len

/-- What `_z_keyexpr_canonize` does from the end of the canonical prefix on. -/
def canonizeRewrite (m : Bytes) (len canonLen : ℕ) : CanonOutcome :=
  let reader := canonLen
  let nextSlash := memchr m delimiter reader (len - reader)
  let chunkStop := nextSlash.getD len
  if chunkStop - reader = 2 ∧ byteAt m (reader + 1) = star then
    if byteAt m reader = star then
      canonizeFrom len reader
        { mem := m, nextSlash, writer := reader, inBigWild := true, ret := .success }
    else if byteAt m reader = dsl0 then
      canonizeFrom len reader
        { mem := m.set reader star, nextSlash, writer := reader + 1, inBigWild := false,
          ret := .success }
    else .aborted
  else .aborted

/-- `_z_keyexpr_canonize`. -/
def keyexprCanonize (m : Bytes) (len : ℕ) : CanonOutcome :=
  let single := singleify m len dollarStar
  let scanned := canonPrefix single.1 single.2
  match scanned.1 with
  | .loneDollarStar | .singleStarAfterDoubleStar | .doubleStarAfterDoubleStar =>
    canonizeRewrite single.1 single.2 scanned.2
  | status => .returned status single.1 single.2

end ZenohPico.Keyexpr
