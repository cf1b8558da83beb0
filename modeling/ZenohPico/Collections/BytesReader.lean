import Mathlib.Data.Int.Notation
import Mathlib.Data.List.Induction
import ZenohPico.Collections.Bytes

/-!
Readers of bytes (`src/collections/bytes.c`).

A reader has a slice, a place in it and a place in all the bytes. A place at the end of a slice is
also one at the start of the next, and `BytesReader.Splits` allows both: the slices are those before
the reader and those that it has not left. Over it a reader is a cursor in the bytes put together.

Offsets are 64-bit integers, whose negation wraps; sizes are natural numbers.
-/

open List Option

namespace ZenohPico.Collections

/-! ### The source's functions -/

/-- The result of a function of the reader -/
inductive ReaderResult
  | ok
  | didNotRead
  | generic
deriving DecidableEq, Repr

/-- The origin of a seek. The last one stands for any other number. -/
inductive SeekOrigin
  | set
  | cur
  | fromEnd
  | other
deriving DecidableEq, Repr

/-- `_z_bytes_reader_t` -/
structure BytesReader where
  sliceIdx : ℕ
  inSliceIdx : ℕ
  byteIdx : ℕ
  bytes : List ArcSlice

/-- `_z_bytes_get_reader` -/
def getReader (bytes : List ArcSlice) : BytesReader := ⟨0, 0, 0, bytes⟩

variable {n : ℕ} {reader' : BytesReader}

namespace BytesReader

variable (reader : BytesReader)

/-- The reader goes to the next slice, over so many bytes. -/
def leave (n : ℕ) : BytesReader :=
  { reader with sliceIdx := reader.sliceIdx + 1, inSliceIdx := 0, byteIdx := reader.byteIdx + n }

/-- The reader goes on in its slice. -/
def advance (n : ℕ) : BytesReader :=
  { reader with inSliceIdx := reader.inSliceIdx + n, byteIdx := reader.byteIdx + n }

/-- The reader goes back in its slice. -/
def retreat (n : ℕ) : BytesReader :=
  { reader with inSliceIdx := reader.inSliceIdx - n, byteIdx := reader.byteIdx - n }

/-- The loop of `_z_bytes_reader_seek_forward` over the slices from the reader's on, with what is
left of the offset -/
def seekForwardFrom : List ArcSlice → BytesReader → ℕ → Option (BytesReader × ℕ)
  | [], reader, offset => some (reader, offset)
  | s :: rest, reader, offset =>
    (s.remaining reader.inSliceIdx).bind fun remaining ↦
      if offset ≥ remaining then
        if offset - remaining = 0 then some (reader.leave remaining, 0)
        else seekForwardFrom rest (reader.leave remaining) (offset - remaining)
      else some (reader.advance offset, 0)

/-- `_z_bytes_reader_seek_forward` -/
def seekForward (offset : ℕ) : Option (ReaderResult × BytesReader) :=
  (seekForwardFrom (reader.bytes.drop reader.sliceIdx) reader offset).map fun left ↦
    (if left.2 > 0 then .didNotRead else .ok, left.1)

/-- The start of a pass of `_z_bytes_reader_seek_backward`: at the start of its slice the reader goes
to the end of the one before. The result is `some none` where there is none. -/
def enterBefore : Option (Option BytesReader) :=
  if reader.inSliceIdx = 0 then
    if reader.sliceIdx = 0 then some none
    else (reader.bytes[reader.sliceIdx - 1]?).map fun s ↦
      some { reader with sliceIdx := reader.sliceIdx - 1, inSliceIdx := s.len }
  else some (some reader)

theorem enterBefore_decreases {reader entered : BytesReader}
    (h : reader.enterBefore = some (some entered)) : entered.sliceIdx < reader.sliceIdx ∨
      entered.sliceIdx = reader.sliceIdx ∧ 0 < reader.inSliceIdx := by
  unfold enterBefore at h
  split_ifs at h with hin hslice
  · cases h
  · obtain ⟨s, -, hs⟩ := map_eq_some_iff.mp h
    rw [← some.inj hs]
    exact .inl (Nat.sub_one_lt hslice)
  · rw [← some.inj (some.inj h)]
    exact .inr ⟨rfl, Nat.pos_of_ne_zero hin⟩

/-- `_z_bytes_reader_seek_backward` -/
def seekBackward (reader : BytesReader) (offset : ℕ) : Option (ReaderResult × BytesReader) :=
  if offset = 0 then some (.ok, reader)
  else
    match h : reader.enterBefore with
    | none => none
    | some none => some (.didNotRead, reader)
    | some (some entered) =>
      have := enterBefore_decreases h
      if offset > entered.inSliceIdx then
        seekBackward (entered.retreat entered.inSliceIdx) (offset - entered.inSliceIdx)
      else some (.ok, entered.retreat offset)
termination_by (reader.sliceIdx, reader.inSliceIdx)
decreasing_by
  rw [Prod.lex_def]
  rcases this with hlt | ⟨heq, hpos⟩
  · exact .inl hlt
  · exact .inr ⟨heq, Nat.lt_of_le_of_lt (Nat.le_of_eq (Nat.sub_self _)) hpos⟩

/-- `_z_bytes_reader_seek` -/
def seek (offset : Int64) : SeekOrigin → Option (ReaderResult × BytesReader)
  | .set =>
    let reader := { reader with byteIdx := 0, inSliceIdx := 0, sliceIdx := 0 }
    if offset < 0 then some (.didNotRead, reader) else reader.seekForward offset.toUInt64.toNat
  | .cur =>
    if offset ≥ 0 then reader.seekForward offset.toUInt64.toNat
    else reader.seekBackward (-offset).toUInt64.toNat
  | .fromEnd =>
    let reader := { reader with
      byteIdx := bytesLen reader.bytes, inSliceIdx := 0, sliceIdx := reader.bytes.length }
    if offset > 0 then some (.didNotRead, reader)
    else reader.seekBackward (-offset).toUInt64.toNat
  | .other => some (.generic, reader)

/-- `_z_bytes_reader_tell` -/
def tell : ℕ := reader.byteIdx

/-- The loop of `_z_bytes_reader_read` over the slices from the reader's on, with what is left of the
length and with the buffer -/
def readFrom : List ArcSlice → BytesReader → ℕ → List UInt8 → Option (BytesReader × ℕ × List UInt8)
  | [], reader, len, buf => some (reader, len, buf)
  | s :: rest, reader, len, buf =>
    (s.remaining reader.inSliceIdx).bind fun remaining ↦
      if len ≥ remaining then
        (s.copy reader.inSliceIdx remaining).bind fun data ↦
          if len - remaining = 0 then some (reader.leave remaining, 0, buf ++ data)
          else readFrom rest (reader.leave remaining) (len - remaining) (buf ++ data)
      else
        (s.copy reader.inSliceIdx len).map fun data ↦ (reader.advance len, 0, buf ++ data)

/-- `_z_bytes_reader_read`: the number of bytes read, and the bytes -/
def read (len : ℕ) : Option ((ℕ × List UInt8) × BytesReader) :=
  (readFrom (reader.bytes.drop reader.sliceIdx) reader len []).map fun left ↦
    ((len - left.2.1, left.2.2), left.1)

/-- The loop of `_z_bytes_reader_read_slices` over the slices from the reader's on, with what is left
of the length and with the slices read -/
def readSlicesFrom : List ArcSlice → BytesReader → ℕ → List ArcSlice →
    Option (BytesReader × ℕ × List ArcSlice)
  | [], reader, len, out => some (reader, len, out)
  | s :: rest, reader, len, out =>
    if len > 0 then
      (s.remaining reader.inSliceIdx).bind fun remaining ↦
        let lenToCopy := if remaining > len then len else remaining
        (s.getSubslice reader.inSliceIdx lenToCopy).bind fun ss ↦
          let reader := reader.advance lenToCopy
          let reader := if reader.inSliceIdx = s.len then reader.leave 0 else reader
          readSlicesFrom rest reader (len - lenToCopy) (out ++ [ss])
    else some (reader, len, out)

/-- `_z_bytes_reader_read_slices`, with the slices if it succeeds -/
def readSlices (len : ℕ) : Option (Option (List ArcSlice) × BytesReader) :=
  (readSlicesFrom (reader.bytes.drop reader.sliceIdx) reader len []).map fun left ↦
    (if left.2.1 > 0 then none else some left.2.2, left.1)

/-- `_z_bytes_reader_remaining` -/
def remaining : ℕ := bytesLen reader.bytes - reader.byteIdx

/-! ### The place of a reader -/

/-- The slices before the reader, and those it has not left -/
structure Splits (before rest : List ArcSlice) : Prop where
  bytes : reader.bytes = before ++ rest
  sliceIdx : reader.sliceIdx = before.length
  inside : ∀ s ∈ rest.head?, reader.inSliceIdx ≤ s.len
  atEnd : rest = [] → reader.inSliceIdx = 0
  byteIdx : reader.byteIdx = (flatten before).length + reader.inSliceIdx

/-- The bytes behind the place of the reader -/
def ahead : List UInt8 := (flatten reader.bytes).drop reader.byteIdx

variable {reader} {before rest : List ArcSlice} {s : ArcSlice}

theorem splits_getReader (bytes : List ArcSlice) : (getReader bytes).Splits [] bytes where
  bytes := rfl
  sliceIdx := rfl
  inside _ _ := Nat.zero_le _
  atEnd _ := rfl
  byteIdx := rfl

namespace Splits

theorem drop_bytes (h : reader.Splits before rest) : reader.bytes.drop reader.sliceIdx = rest := by
  rw [h.bytes, h.sliceIdx, drop_left]

theorem ahead_eq (h : reader.Splits before rest) :
    reader.ahead = (flatten rest).drop reader.inSliceIdx := by
  rw [ahead, h.bytes, h.byteIdx, flatten_append, ← drop_drop, drop_left]

theorem ahead_nil (h : reader.Splits before []) : reader.ahead = [] := by
  rw [h.ahead_eq, flatten_nil, drop_nil]

theorem le_len (h : reader.Splits before (s :: rest)) : reader.inSliceIdx ≤ s.len :=
  h.inside s rfl

theorem ahead_cons (h : reader.Splits before (s :: rest)) :
    reader.ahead = s.bytes.drop reader.inSliceIdx ++ flatten rest := by
  rw [h.ahead_eq, flatten_cons, drop_append_of_le_length]
  exact Nat.le_trans h.le_len (Nat.le_of_eq ArcSlice.length_bytes.symm)

theorem byteIdx_le (h : reader.Splits before rest) :
    reader.byteIdx + reader.ahead.length = (flatten reader.bytes).length := by
  have hle : reader.byteIdx ≤ (flatten reader.bytes).length := by
    rw [h.byteIdx, h.bytes, flatten_append, length_append]
    cases rest with
    | nil => rw [h.atEnd rfl]; exact Nat.add_le_add_left (Nat.zero_le _) _
    | cons s rest =>
      rw [flatten_cons, length_append, ArcSlice.length_bytes]
      exact Nat.add_le_add_left (Nat.le_trans h.le_len (Nat.le_add_right _ _)) _
  rw [ahead, length_drop, Nat.add_sub_cancel' hle]

theorem leave (h : reader.Splits before (s :: rest)) :
    (reader.leave (s.bytes.drop reader.inSliceIdx).length).Splits (before ++ [s]) rest where
  bytes := by
    rw [append_assoc]
    exact h.bytes
  sliceIdx := by
    rw [length_append]
    exact congrArg (· + 1) h.sliceIdx
  inside _ _ := Nat.zero_le _
  atEnd _ := rfl
  byteIdx := by
    have hle := h.le_len
    have hbyte := h.byteIdx
    change reader.byteIdx + (s.bytes.drop reader.inSliceIdx).length = _ + 0
    rw [flatten_append, flatten_singleton, length_append, length_drop, ArcSlice.length_bytes]
    omega

theorem advance (h : reader.Splits before (s :: rest))
    (hn : n ≤ (s.bytes.drop reader.inSliceIdx).length) :
    (reader.advance n).Splits before (s :: rest) where
  bytes := h.bytes
  sliceIdx := h.sliceIdx
  inside _ hs := by
    have hle := h.le_len
    rw [length_drop, ArcSlice.length_bytes] at hn
    rw [← some.inj hs]
    change reader.inSliceIdx + n ≤ s.len
    omega
  atEnd hnil := absurd hnil (cons_ne_nil _ _)
  byteIdx := (congrArg (· + n) h.byteIdx).trans (Nat.add_assoc _ _ _)

theorem retreat (h : reader.Splits before rest) (hn : n ≤ reader.inSliceIdx) :
    (reader.retreat n).Splits before rest where
  bytes := h.bytes
  sliceIdx := h.sliceIdx
  inside s hs := Nat.le_trans (Nat.sub_le _ _) (h.inside s hs)
  atEnd hnil := by
    change reader.inSliceIdx - n = 0
    rw [h.atEnd hnil, Nat.zero_sub]
  byteIdx := by
    have hbyte := h.byteIdx
    change reader.byteIdx - n = _ + (reader.inSliceIdx - n)
    omega

end Splits

/-! ### Reading -/

/-- A reader that went over so many bytes -/
structure Went (reader reader' : BytesReader) (n : ℕ) : Prop where
  splits : ∃ before rest, reader'.Splits before rest
  bytes : reader'.bytes = reader.bytes
  byteIdx : reader'.byteIdx = reader.byteIdx + n

theorem Went.trans {reader'' : BytesReader} {m : ℕ} (h : Went reader reader' m)
    (h' : Went reader' reader'' n) : Went reader reader'' (m + n) where
  splits := h'.splits
  bytes := h'.bytes.trans h.bytes
  byteIdx := by rw [h'.byteIdx, h.byteIdx, Nat.add_assoc]

/-- The loop reads as many bytes as there are. -/
theorem readFrom_spec (h : reader.Splits before rest) (len : ℕ) (buf : List UInt8) :
    ∃ reader', readFrom rest reader len buf =
        some (reader', len - reader.ahead.length, buf ++ reader.ahead.take len) ∧
      Went reader reader' (min len reader.ahead.length) := by
  induction rest generalizing before reader len buf with
  | nil =>
    refine ⟨reader, ?_, ⟨_, _, h⟩, rfl, ?_⟩
    · rw [readFrom, h.ahead_nil, take_nil, append_nil, length_nil, Nat.sub_zero]
    · rw [h.ahead_nil, length_nil, Nat.min_zero, Nat.add_zero]
  | cons s rest ih =>
    have hahead := h.ahead_cons
    have hlen := congrArg List.length hahead
    rw [length_append] at hlen
    have hremaining := ArcSlice.remaining_eq h.le_len
    have hsum : reader.inSliceIdx + (s.bytes.drop reader.inSliceIdx).length = s.len := by
      rw [length_drop, ArcSlice.length_bytes, Nat.add_sub_cancel' h.le_len]
    by_cases hge : len ≥ (s.bytes.drop reader.inSliceIdx).length
    · have hleave := h.leave
      have hwent : Went reader (reader.leave (s.bytes.drop reader.inSliceIdx).length)
          (s.bytes.drop reader.inSliceIdx).length := ⟨⟨_, _, hleave⟩, rfl, rfl⟩
      have hrest : (reader.leave (s.bytes.drop reader.inSliceIdx).length).ahead = flatten rest := by
        rw [hleave.ahead_eq]
        rfl
      have hcopy := ArcSlice.copy_eq (Nat.le_of_eq hsum)
      rw [take_length] at hcopy
      by_cases hzero : len - (s.bytes.drop reader.inSliceIdx).length = 0
      · have heq : len = (s.bytes.drop reader.inSliceIdx).length :=
          Nat.le_antisymm (Nat.le_of_sub_eq_zero hzero) hge
        refine ⟨reader.leave (s.bytes.drop reader.inSliceIdx).length, ?_, ?_⟩
        · rw [readFrom, hremaining, bind_some, if_pos hge, hcopy, bind_some,
            if_pos hzero, hahead, heq, take_left, length_append, Nat.sub_add_eq,
            Nat.sub_self, Nat.zero_sub]
        · rw [hlen, heq, Nat.min_eq_left (Nat.le_add_right _ _)]
          exact hwent
      · obtain ⟨reader', hread, hgoes⟩ := ih hleave
          (len - (s.bytes.drop reader.inSliceIdx).length)
          (buf ++ s.bytes.drop reader.inSliceIdx)
        refine ⟨reader', ?_, ?_⟩
        · rw [readFrom, hremaining, bind_some, if_pos hge, hcopy, bind_some,
            if_neg hzero, hread, hrest, hahead, take_append, take_of_length_le hge,
            length_append, Nat.sub_add_eq, append_assoc]
        · have hmin : min len reader.ahead.length = (s.bytes.drop reader.inSliceIdx).length +
              min (len - (s.bytes.drop reader.inSliceIdx).length) (flatten rest).length := by
            rw [hlen]
            omega
          rw [hmin, ← hrest]
          exact hwent.trans hgoes
    · have hle := Nat.le_of_not_le hge
      refine ⟨reader.advance len, ?_, ⟨_, _, h.advance hle⟩, rfl, ?_⟩
      · rw [readFrom, hremaining, bind_some, if_neg hge, ArcSlice.copy_eq (by omega),
          map_some, hahead, take_append_of_le_length hle,
          Nat.sub_eq_zero_of_le (by rw [length_append]; omega)]
      · rw [hlen, Nat.min_eq_left (by omega)]
        rfl

/-- A seek goes as a read does. -/
theorem seekForwardFrom_eq (h : reader.Splits before rest) (offset : ℕ) (buf : List UInt8) :
    seekForwardFrom rest reader offset =
      (readFrom rest reader offset buf).map fun left ↦ (left.1, left.2.1) := by
  induction rest generalizing before reader offset buf with
  | nil => rfl
  | cons s rest ih =>
    have hsum : reader.inSliceIdx + (s.bytes.drop reader.inSliceIdx).length = s.len := by
      rw [length_drop, ArcSlice.length_bytes, Nat.add_sub_cancel' h.le_len]
    rw [seekForwardFrom, readFrom, ArcSlice.remaining_eq h.le_len, bind_some, bind_some]
    by_cases hge : offset ≥ (s.bytes.drop reader.inSliceIdx).length
    · rw [if_pos hge, if_pos hge, ArcSlice.copy_eq (Nat.le_of_eq hsum), bind_some]
      split_ifs
      · rfl
      · exact ih h.leave _ _
    · rw [if_neg hge, if_neg hge, ArcSlice.copy_eq (by omega)]
      rfl

/-! ### Seeking back -/

theorem Splits.eq_zero (h : reader.Splits [] rest) (hstart : reader.inSliceIdx = 0) :
    reader.byteIdx = 0 := by
  rw [h.byteIdx, hstart]
  rfl

/-- At the start of a slice, the one before is entered at its end. -/
theorem Splits.enterBefore (h : reader.Splits (before ++ [s]) rest)
    (hstart : reader.inSliceIdx = 0) : ∃ entered, reader.enterBefore = some (some entered) ∧
      entered.Splits before (s :: rest) ∧ entered.inSliceIdx = s.len ∧
      entered.byteIdx = reader.byteIdx ∧ entered.bytes = reader.bytes := by
  have hslice : reader.sliceIdx = before.length + 1 := by
    rw [h.sliceIdx, length_append]
    rfl
  have hbytes : reader.bytes = before ++ s :: rest := by
    rw [h.bytes, append_assoc]
    rfl
  have hget : reader.bytes[reader.sliceIdx - 1]? = some s := by
    rw [hslice, hbytes, Nat.add_sub_cancel, List.getElem?_append_right (Nat.le_refl _),
      Nat.sub_self]
    rfl
  refine ⟨{ reader with sliceIdx := reader.sliceIdx - 1, inSliceIdx := s.len }, ?_,
    ⟨hbytes, ?_, ?_, ?_, ?_⟩, rfl, rfl, rfl⟩
  · rw [BytesReader.enterBefore, if_pos hstart, if_neg (by omega), hget, map_some]
  · exact (congrArg (· - 1) hslice).trans (Nat.add_sub_cancel _ _)
  · intro _ hs
    exact Nat.le_of_eq (congrArg ArcSlice.len (some.inj hs))
  · exact fun hnil ↦ absurd hnil (cons_ne_nil _ _)
  · refine h.byteIdx.trans ?_
    rw [hstart, flatten_append, flatten_singleton, length_append, ArcSlice.length_bytes]
    rfl

/-- A reader that went back over so many bytes, if there were so many -/
structure WentBack (reader : BytesReader) (n : ℕ) (result : ReaderResult)
    (reader' : BytesReader) : Prop where
  splits : ∃ before rest, reader'.Splits before rest
  bytes : reader'.bytes = reader.bytes
  result : result = if n ≤ reader.byteIdx then .ok else .didNotRead
  byteIdx : reader'.byteIdx = reader.byteIdx - n

theorem seekBackward_zero (reader : BytesReader) :
    reader.seekBackward 0 = some (.ok, reader) := by rw [seekBackward, if_pos rfl]

variable {offset : ℕ}

theorem seekBackward_pass (hoffset : offset ≠ 0) :
    reader.seekBackward offset = match reader.enterBefore with
      | none => none
      | some none => some (.didNotRead, reader)
      | some (some entered) =>
        if offset > entered.inSliceIdx then
          (entered.retreat entered.inSliceIdx).seekBackward (offset - entered.inSliceIdx)
        else some (.ok, entered.retreat offset) := by
  rw [seekBackward, if_neg hoffset]
  split
  · next hnone => rw [hnone]
  · next hstart => rw [hstart]
  · next hentered => simp only [hentered]

theorem Splits.retreat_back (h : reader.Splits before rest) (hoffset : offset ≤ reader.inSliceIdx) :
    WentBack reader offset .ok (reader.retreat offset) where
  splits := ⟨_, _, h.retreat hoffset⟩
  bytes := rfl
  result := by
    rw [if_pos]
    rw [h.byteIdx]
    exact Nat.le_trans hoffset (Nat.le_add_left _ _)
  byteIdx := rfl

/-- To the start of the slice, and then further back -/
theorem WentBack.trans {reader' : BytesReader} {result : ReaderResult}
    (h : reader.Splits before rest) {offset : ℕ} (hoffset : offset > reader.inSliceIdx)
    (hback : WentBack (reader.retreat reader.inSliceIdx) (offset - reader.inSliceIdx) result reader') :
    WentBack reader offset result reader' where
  splits := hback.splits
  bytes := hback.bytes
  result := by
    have hle : reader.inSliceIdx ≤ reader.byteIdx := by
      rw [h.byteIdx]
      exact Nat.le_add_left _ _
    rw [hback.result]
    change (if offset - reader.inSliceIdx ≤ reader.byteIdx - reader.inSliceIdx then _ else _) = _
    by_cases hin : offset ≤ reader.byteIdx
    · rw [if_pos hin, if_pos (Nat.sub_le_sub_right hin _)]
    · rw [if_neg hin, if_neg (by omega)]
  byteIdx := by
    rw [hback.byteIdx]
    change reader.byteIdx - reader.inSliceIdx - (offset - reader.inSliceIdx) = _
    omega

/-- From the start of a slice -/
theorem seekBackward_start (h : reader.Splits before rest) (hstart : reader.inSliceIdx = 0)
    (offset : ℕ) : ∃ result reader', reader.seekBackward offset = some (result, reader') ∧
      WentBack reader offset result reader' := by
  induction before using List.reverseRecOn generalizing reader rest offset with
  | nil =>
    have hbyte := h.eq_zero hstart
    by_cases hoffset : offset = 0
    · rw [hoffset]
      exact ⟨_, _, seekBackward_zero reader, ⟨_, _, h⟩, rfl, (if_pos (Nat.zero_le _)).symm, rfl⟩
    · have henter : reader.enterBefore = some none := by
        have hslice : reader.sliceIdx = 0 := h.sliceIdx
        rw [BytesReader.enterBefore, if_pos hstart, if_pos hslice]
      refine ⟨.didNotRead, reader, ?_, ⟨_, _, h⟩, rfl, ?_, ?_⟩
      · rw [seekBackward_pass hoffset, henter]
      · rw [hbyte, if_neg (by omega)]
      · rw [hbyte, Nat.zero_sub]
  | append_singleton before s ih =>
    by_cases hoffset : offset = 0
    · rw [hoffset]
      exact ⟨_, _, seekBackward_zero reader, ⟨_, _, h⟩, rfl, (if_pos (Nat.zero_le _)).symm, rfl⟩
    · obtain ⟨entered, henter, hsplits, hlen, hbyte, hbytes⟩ := h.enterBefore hstart
      have hsame : ∀ {result reader'}, WentBack entered offset result reader' →
          WentBack reader offset result reader' := fun hback ↦
        ⟨hback.splits, hback.bytes.trans hbytes, hbyte ▸ hback.result, hbyte ▸ hback.byteIdx⟩
      by_cases hgt : offset > entered.inSliceIdx
      · obtain ⟨result, reader', hseek, hback⟩ := ih (hsplits.retreat (Nat.le_refl _))
          (Nat.sub_self _) (offset - entered.inSliceIdx)
        refine ⟨result, reader', ?_, hsame (.trans hsplits hgt hback)⟩
        rw [seekBackward_pass hoffset, henter]
        exact (if_pos hgt).trans hseek
      · refine ⟨.ok, entered.retreat offset, ?_,
          hsame (hsplits.retreat_back (Nat.le_of_not_gt hgt))⟩
        rw [seekBackward_pass hoffset, henter]
        exact if_neg hgt

theorem seekBackward_spec (h : reader.Splits before rest) (offset : ℕ) :
    ∃ result reader', reader.seekBackward offset = some (result, reader') ∧
      WentBack reader offset result reader' := by
  by_cases hstart : reader.inSliceIdx = 0
  · exact seekBackward_start h hstart offset
  · by_cases hoffset : offset = 0
    · rw [hoffset]
      exact ⟨_, _, seekBackward_zero reader, ⟨_, _, h⟩, rfl, (if_pos (Nat.zero_le _)).symm, rfl⟩
    · have henter : reader.enterBefore = some (some reader) := if_neg hstart
      by_cases hgt : offset > reader.inSliceIdx
      · obtain ⟨result, reader', hseek, hback⟩ := seekBackward_start (h.retreat (Nat.le_refl _))
          (Nat.sub_self _) (offset - reader.inSliceIdx)
        refine ⟨result, reader', ?_, .trans h hgt hback⟩
        rw [seekBackward_pass hoffset, henter]
        exact (if_pos hgt).trans hseek
      · refine ⟨.ok, reader.retreat offset, ?_, h.retreat_back (Nat.le_of_not_gt hgt)⟩
        rw [seekBackward_pass hoffset, henter]
        exact if_neg hgt

end BytesReader

/-! ### A cursor in a list of bytes -/

/-- A list of bytes and a place in it -/
structure Cursor where
  bytes : List UInt8
  pos : ℕ
deriving DecidableEq, Repr

/-- What is done with a reader -/
inductive ReaderOp
  | seek (offset : Int64) (origin : SeekOrigin)
  | read (len : ℕ)
  | readSlices (len : ℕ)
  | tell
  | remaining
deriving DecidableEq

/-- What comes out of it. Slices are put together. -/
inductive ReaderOut
  | seek (result : ReaderResult)
  | read (count : ℕ) (bytes : List UInt8)
  | slices (bytes : Option (List UInt8))
  | place (n : ℕ)
deriving DecidableEq, Repr

namespace Cursor

variable (cursor : Cursor)

/-- To a place, or as near as possible with an error -/
def seekTo (target : ℤ) : ReaderOut × Cursor :=
  if target < 0 then (.seek .didNotRead, { cursor with pos := 0 })
  else if target ≤ cursor.bytes.length then (.seek .ok, { cursor with pos := target.toNat })
  else (.seek .didNotRead, { cursor with pos := cursor.bytes.length })

def step : ReaderOp → ReaderOut × Cursor
  | .seek offset .set => cursor.seekTo offset.toInt
  | .seek offset .cur => cursor.seekTo (cursor.pos + offset.toInt)
  | .seek offset .fromEnd => cursor.seekTo (cursor.bytes.length + offset.toInt)
  | .seek _ .other => (.seek .generic, cursor)
  | .read len =>
    let found := (cursor.bytes.drop cursor.pos).take len
    (.read found.length found, { cursor with pos := cursor.pos + found.length })
  | .readSlices len =>
    if cursor.pos + len ≤ cursor.bytes.length then
      (.slices (some ((cursor.bytes.drop cursor.pos).take len)),
        { cursor with pos := cursor.pos + len })
    else (.slices none, { cursor with pos := cursor.bytes.length })
  | .tell => (.place cursor.pos, cursor)
  | .remaining => (.place (cursor.bytes.length - cursor.pos), cursor)

def run (cursor : Cursor) : List ReaderOp → List ReaderOut × Cursor
  | [] => ([], cursor)
  | op :: ops =>
    (((cursor.step op).1 :: ((cursor.step op).2.run ops).1), ((cursor.step op).2.run ops).2)

end Cursor

namespace BytesReader

variable (reader : BytesReader)

/-- The cursor that a reader stands for -/
def cursor : Cursor := ⟨flatten reader.bytes, reader.byteIdx⟩

def step : ReaderOp → Option (ReaderOut × BytesReader)
  | .seek offset origin => (reader.seek offset origin).map fun p ↦ (.seek p.1, p.2)
  | .read len => (reader.read len).map fun p ↦ (.read p.1.1 p.1.2, p.2)
  | .readSlices len => (reader.readSlices len).map fun p ↦ (.slices (p.1.map flatten), p.2)
  | .tell => some (.place reader.tell, reader)
  | .remaining => some (.place reader.remaining, reader)

def run (reader : BytesReader) : List ReaderOp → Option (List ReaderOut × BytesReader)
  | [] => some ([], reader)
  | op :: ops =>
    (reader.step op).bind fun p ↦ (p.2.run ops).map fun q ↦ (p.1 :: q.1, q.2)

variable {reader} {before rest : List ArcSlice}

/-- The reader makes the step of its cursor. -/
def Simulates (reader : BytesReader) (op : ReaderOp) : Prop :=
  ∃ reader', reader.step op = some ((reader.cursor.step op).1, reader') ∧
    (∃ before rest, reader'.Splits before rest) ∧ reader'.cursor = (reader.cursor.step op).2

theorem Went.cursor_eq (h : Went reader reader' n) :
    reader'.cursor = ⟨flatten reader.bytes, reader.byteIdx + n⟩ := by
  rw [cursor, h.bytes, h.byteIdx]

theorem Splits.simulates_read (h : reader.Splits before rest) (len : ℕ) :
    reader.Simulates (.read len) := by
  obtain ⟨reader', hread, hwent⟩ := readFrom_spec h len []
  have hcount : len - (len - reader.ahead.length) = min len reader.ahead.length := by omega
  refine ⟨reader', ?_, hwent.splits, ?_⟩
  · rw [step, read, h.drop_bytes, hread, map_some, map_some, nil_append, hcount, ← length_take]
    rfl
  · rw [hwent.cursor_eq, ← length_take]
    rfl

/-! ### Reading slices -/

theorem readSlicesFrom_zero (rest : List ArcSlice) (reader : BytesReader) (out : List ArcSlice) :
    readSlicesFrom rest reader 0 out = some (reader, 0, out) := by
  cases rest with
  | nil => rfl
  | cons s rest => rfl

/-- The loop reads slices with as many bytes as there are. -/
theorem readSlicesFrom_spec (h : reader.Splits before rest) (len : ℕ) (out : List ArcSlice) :
    ∃ reader' out', readSlicesFrom rest reader len out =
        some (reader', len - reader.ahead.length, out') ∧
      flatten out' = flatten out ++ reader.ahead.take len ∧
      Went reader reader' (min len reader.ahead.length) := by
  induction rest generalizing before reader len out with
  | nil =>
    refine ⟨reader, out, ?_, ?_, ⟨_, _, h⟩, rfl, ?_⟩
    · rw [readSlicesFrom, h.ahead_nil, length_nil, Nat.sub_zero]
    · rw [h.ahead_nil, take_nil, append_nil]
    · rw [h.ahead_nil, length_nil, Nat.min_zero, Nat.add_zero]
  | cons s rest ih =>
    by_cases hzero : len = 0
    · subst hzero
      refine ⟨reader, out, ?_, ?_, ⟨_, _, h⟩, rfl, ?_⟩
      · rw [readSlicesFrom_zero, Nat.zero_sub]
      · rw [take_zero, append_nil]
      · rw [Nat.zero_min, Nat.add_zero]
    have hahead := h.ahead_cons
    have hlen := congrArg List.length hahead
    rw [length_append] at hlen
    have hsum : reader.inSliceIdx + (s.bytes.drop reader.inSliceIdx).length = s.len := by
      rw [length_drop, ArcSlice.length_bytes, Nat.add_sub_cancel' h.le_len]
    rw [readSlicesFrom, if_pos (Nat.pos_of_ne_zero hzero), ArcSlice.remaining_eq h.le_len,
      bind_some]
    dsimp only
    by_cases hgt : (s.bytes.drop reader.inSliceIdx).length > len
    · -- the slice has more than enough
      obtain ⟨sub, hsub, hbytes⟩ := ArcSlice.getSubslice_eq
        (Nat.le_trans (Nat.add_le_add_left (Nat.le_of_lt hgt) _) (Nat.le_of_eq hsum))
      have hinside : (reader.advance len).inSliceIdx ≠ s.len := by
        change reader.inSliceIdx + len ≠ s.len
        omega
      refine ⟨reader.advance len, out ++ [sub], ?_, ?_, ⟨_, _, h.advance (Nat.le_of_lt hgt)⟩, rfl, ?_⟩
      · rw [if_pos hgt, hsub, bind_some, if_neg hinside, Nat.sub_self, readSlicesFrom_zero,
          Nat.sub_eq_zero_of_le (by omega)]
      · rw [flatten_append, flatten_singleton, hbytes, hahead,
          take_append_of_le_length (Nat.le_of_lt hgt)]
      · rw [hlen, Nat.min_eq_left (by omega)]
        rfl
    · -- the slice is read to its end
      have hle := Nat.le_of_not_gt hgt
      obtain ⟨sub, hsub, hbytes⟩ := ArcSlice.getSubslice_eq (Nat.le_of_eq hsum)
      rw [take_length] at hbytes
      have hleave := h.leave
      have hrest : (reader.leave (s.bytes.drop reader.inSliceIdx).length).ahead = flatten rest := by
        rw [hleave.ahead_eq]
        rfl
      have hwent : Went reader (reader.leave (s.bytes.drop reader.inSliceIdx).length)
          (s.bytes.drop reader.inSliceIdx).length := ⟨⟨_, _, hleave⟩, rfl, rfl⟩
      obtain ⟨reader', out', hread, hflatten, hgoes⟩ := ih hleave
        (len - (s.bytes.drop reader.inSliceIdx).length) (out ++ [sub])
      have hmin : min len reader.ahead.length = (s.bytes.drop reader.inSliceIdx).length +
          min (len - (s.bytes.drop reader.inSliceIdx).length) (flatten rest).length := by
        rw [hlen]
        omega
      refine ⟨reader', out', ?_, ?_, ?_⟩
      · have hend : (reader.advance (s.bytes.drop reader.inSliceIdx).length).inSliceIdx = s.len :=
          hsum
        rw [if_neg hgt, hsub, bind_some, if_pos hend, hlen, Nat.sub_add_eq, ← hrest]
        exact hread
      · rw [hflatten, flatten_append, flatten_singleton, hbytes, hrest, hahead, take_append,
          take_of_length_le hle, append_assoc]
      · rw [hmin, ← hrest]
        exact hwent.trans hgoes

theorem Splits.simulates_readSlices (h : reader.Splits before rest) (len : ℕ) :
    reader.Simulates (.readSlices len) := by
  obtain ⟨reader', out', hread, hflatten, hwent⟩ := readSlicesFrom_spec h len []
  have htotal := h.byteIdx_le
  have hstep : reader.step (.readSlices len) = some (.slices
      (if len - reader.ahead.length > 0 then none else some (reader.ahead.take len)), reader') := by
    rw [step, readSlices, h.drop_bytes, hread, map_some, map_some]
    dsimp only
    split_ifs
    · rfl
    · rw [map_some, hflatten]
      rfl
  rw [Simulates, hstep, Cursor.step, cursor]
  dsimp only
  refine ⟨reader', ?_, hwent.splits, ?_⟩
  · by_cases henough : reader.byteIdx + len ≤ (flatten reader.bytes).length
    · rw [if_pos henough, if_neg (by omega)]
      rfl
    · rw [if_neg henough, if_pos (by omega)]
  · rw [hwent.cursor_eq]
    by_cases henough : reader.byteIdx + len ≤ (flatten reader.bytes).length
    · rw [if_pos henough, Nat.min_eq_left (by omega)]
    · rw [if_neg henough, Nat.min_eq_right (by omega), htotal]

/-! ### Seeking -/

theorem toNat_of_nonneg {offset : Int64} (h : offset ≥ 0) :
    (offset.toUInt64.toNat : ℤ) = offset.toInt := by
  have hle : 0 ≤ offset.toInt := Int64.le_iff_toInt_le.mp h
  rw [← Int64.toInt_toBitVec, BitVec.toInt_eq_toNat_cond, Int64.toNat_toBitVec] at hle ⊢
  have hlt := offset.toUInt64.toNat_lt
  split_ifs at hle ⊢ <;> omega

theorem toNat_neg_of_nonpos {offset : Int64} (h : ¬ offset > 0) :
    ((-offset).toUInt64.toNat : ℤ) = -offset.toInt := by
  have hle : ¬ 0 < offset.toInt := fun hlt ↦ h (Int64.lt_iff_toInt_lt.mpr hlt)
  have hneg : (-offset).toUInt64.toNat = (0x10000000000000000 - offset.toUInt64.toNat) %
      0x10000000000000000 := by
    rw [← Int64.toNat_toBitVec, Int64.toBitVec_neg, BitVec.toNat_neg]
    rfl
  rw [← Int64.toInt_toBitVec, BitVec.toInt_eq_toNat_cond, Int64.toNat_toBitVec] at hle ⊢
  have hlt := offset.toUInt64.toNat_lt
  split_ifs at hle ⊢ <;> omega

theorem seekForward_spec (h : reader.Splits before rest) (offset : ℕ) :
    ∃ reader', reader.seekForward offset =
        some (if offset ≤ reader.ahead.length then .ok else .didNotRead, reader') ∧
      Went reader reader' (min offset reader.ahead.length) := by
  obtain ⟨reader', hread, hwent⟩ := readFrom_spec h offset []
  refine ⟨reader', ?_, hwent⟩
  rw [seekForward, h.drop_bytes, seekForwardFrom_eq h offset [], hread, map_some, map_some]
  dsimp only
  by_cases hle : offset ≤ reader.ahead.length
  · rw [if_pos hle, if_neg (by omega)]
  · rw [if_neg hle, if_pos (by omega)]

/-- A seek makes the cursor's step to a place. -/
def SeeksTo (reader : BytesReader) (target : ℤ) (result : ReaderResult)
    (reader' : BytesReader) : Prop :=
  (.seek result, reader'.cursor) = reader.cursor.seekTo target ∧
    ∃ before rest, reader'.Splits before rest

variable {target : ℤ}

theorem Splits.seeksTo_forward (h : reader.Splits before rest) (offset : ℕ)
    (htarget : target = reader.byteIdx + offset) :
    ∃ result reader', reader.seekForward offset = some (result, reader') ∧
      reader.SeeksTo target result reader' := by
  obtain ⟨reader', hseek, hwent⟩ := seekForward_spec h offset
  have htotal := h.byteIdx_le
  refine ⟨_, reader', hseek, ?_, hwent.splits⟩
  have hnonneg : ¬ target < 0 := by omega
  rw [hwent.cursor_eq, Cursor.seekTo, cursor, if_neg hnonneg]
  dsimp only
  by_cases hle : offset ≤ reader.ahead.length
  · rw [if_pos hle, if_pos (by omega), Nat.min_eq_left hle, htarget, ← Int.natCast_add,
      Int.toNat_natCast]
  · rw [if_neg hle, if_neg (by omega), Nat.min_eq_right (by omega), htotal]

theorem Splits.seeksTo_backward (h : reader.Splits before rest) (offset : ℕ)
    (htarget : target = reader.byteIdx - offset) :
    ∃ result reader', reader.seekBackward offset = some (result, reader') ∧
      reader.SeeksTo target result reader' := by
  obtain ⟨result, reader', hseek, hback⟩ := seekBackward_spec h offset
  have htotal := h.byteIdx_le
  refine ⟨result, reader', hseek, ?_, hback.splits⟩
  rw [cursor, hback.bytes, hback.byteIdx, hback.result, Cursor.seekTo, cursor]
  dsimp only
  by_cases hle : offset ≤ reader.byteIdx
  · rw [if_pos hle, if_neg (by omega), if_pos (by omega)]
    congr 2
    omega
  · rw [if_neg hle, if_pos (by omega), Nat.sub_eq_zero_of_le (by omega)]

/-- The reader of the same bytes at their start -/
theorem splits_start (bytes : List ArcSlice) :
    Splits { sliceIdx := 0, inSliceIdx := 0, byteIdx := 0, bytes } [] bytes :=
  splits_getReader bytes

/-- The reader of the same bytes at their end -/
theorem splits_end (bytes : List ArcSlice) : Splits
    { sliceIdx := bytes.length, inSliceIdx := 0, byteIdx := bytesLen bytes, bytes } bytes [] where
  bytes := (append_nil bytes).symm
  sliceIdx := rfl
  inside _ _ := Nat.zero_le _
  atEnd _ := rfl
  byteIdx := (length_flatten bytes).symm

theorem Simulates.of_seeksTo (start : BytesReader) {offset : Int64} {origin : SeekOrigin}
    (hstep : reader.cursor.step (.seek offset origin) = start.cursor.seekTo target)
    (h : ∃ result reader', reader.seek offset origin = some (result, reader') ∧
      start.SeeksTo target result reader') : reader.Simulates (.seek offset origin) := by
  obtain ⟨result, reader', hseek, hcursor, hsplits⟩ := h
  rw [Simulates, hstep, ← hcursor, step, hseek]
  exact ⟨reader', rfl, hsplits, rfl⟩

theorem Splits.simulates_seek (h : reader.Splits before rest) (offset : Int64)
    (origin : SeekOrigin) : reader.Simulates (.seek offset origin) := by
  cases origin with
  | set =>
    have hstart := splits_start reader.bytes
    refine Simulates.of_seeksTo ⟨0, 0, 0, reader.bytes⟩ rfl ?_
    by_cases hneg : offset < 0
    · have hlt : offset.toInt < 0 := Int64.lt_iff_toInt_lt.mp hneg
      refine ⟨_, _, if_pos hneg, ?_, _, _, hstart⟩
      rw [Cursor.seekTo, if_pos hlt]
      rfl
    · have hnat := toNat_of_nonneg (Int64.not_lt.mp hneg)
      obtain ⟨result, reader', hseek, hseeks⟩ := hstart.seeksTo_forward offset.toUInt64.toNat
        (hnat.symm.trans (Int.zero_add _).symm)
      exact ⟨result, reader', (if_neg hneg).trans hseek, hseeks⟩
  | cur =>
    refine Simulates.of_seeksTo reader rfl ?_
    by_cases hnonneg : offset ≥ 0
    · have hnat := toNat_of_nonneg hnonneg
      obtain ⟨result, reader', hseek, hseeks⟩ := h.seeksTo_forward offset.toUInt64.toNat
        (congrArg ((reader.byteIdx : ℤ) + ·) hnat.symm)
      exact ⟨result, reader', (if_pos hnonneg).trans hseek, hseeks⟩
    · have hnat := toNat_neg_of_nonpos fun hpos ↦ hnonneg (Int64.le_of_lt hpos)
      have htarget : (reader.byteIdx : ℤ) + offset.toInt =
          reader.byteIdx - ((-offset).toUInt64.toNat : ℤ) := by omega
      obtain ⟨result, reader', hseek, hseeks⟩ := h.seeksTo_backward _ htarget
      exact ⟨result, reader', (if_neg hnonneg).trans hseek, hseeks⟩
  | fromEnd =>
    have hend := splits_end reader.bytes
    have hlen := length_flatten reader.bytes
    refine Simulates.of_seeksTo ⟨reader.bytes.length, 0, bytesLen reader.bytes, reader.bytes⟩ rfl ?_
    by_cases hpos : offset > 0
    · have hlt : 0 < offset.toInt := Int64.lt_iff_toInt_lt.mp hpos
      refine ⟨_, _, if_pos hpos, ?_, _, _, hend⟩
      rw [Cursor.seekTo, cursor, cursor]
      dsimp only
      rw [if_neg (by omega), if_neg (by omega), hlen]
    · have hnat := toNat_neg_of_nonpos hpos
      have htarget : ((flatten reader.bytes).length : ℤ) + offset.toInt =
          (bytesLen reader.bytes : ℤ) - ((-offset).toUInt64.toNat : ℤ) := by omega
      obtain ⟨result, reader', hseek, hseeks⟩ := hend.seeksTo_backward _ htarget
      exact ⟨result, reader', (if_neg hpos).trans hseek, hseeks⟩
  | other => exact ⟨reader, rfl, ⟨_, _, h⟩, rfl⟩

theorem Splits.simulates (h : reader.Splits before rest) (op : ReaderOp) : reader.Simulates op := by
  cases op with
  | seek offset origin => exact h.simulates_seek offset origin
  | read len => exact h.simulates_read len
  | readSlices len => exact h.simulates_readSlices len
  | tell => exact ⟨reader, rfl, ⟨_, _, h⟩, rfl⟩
  | remaining =>
    refine ⟨reader, ?_, ⟨_, _, h⟩, rfl⟩
    rw [step, remaining, ← length_flatten]
    rfl

/-- A reader makes the steps of its cursor. -/
theorem Splits.run_eq (h : reader.Splits before rest) (ops : List ReaderOp) :
    (reader.run ops).map (Prod.map id cursor) = some (reader.cursor.run ops) := by
  induction ops generalizing reader before rest with
  | nil => rfl
  | cons op ops ih =>
    obtain ⟨reader', hstep, ⟨before', rest', hsplits⟩, hcursor⟩ := h.simulates op
    obtain ⟨left, hrun, hleft⟩ := map_eq_some_iff.mp (ih hsplits)
    rw [run, hstep, bind_some, hrun, map_some, map_some, Cursor.run, ← hcursor, ← hleft]
    rfl

/-- A reader of slices is a cursor in the bytes put together. -/
theorem run_getReader (bytes : List ArcSlice) (ops : List ReaderOp) :
    ((getReader bytes).run ops).map (Prod.map id cursor) =
      some (Cursor.run ⟨flatten bytes, 0⟩ ops) :=
  (splits_getReader bytes).run_eq ops

end BytesReader

end ZenohPico.Collections
