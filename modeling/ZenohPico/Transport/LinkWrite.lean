import ZenohPico.Foundations.FuelLoop
import ZenohPico.Protocol.Codec

/-!
Writing a buffer to a link (`_z_link_send_wbuf` of `src/link/link.c`, `_z_raweth_link_send_wbuf`
of `src/transport/raweth/tx.c`).

The write function of a link takes as many bytes as it likes of what it is offered. Each slice of
the buffer has a loop that offers what is left of it. The loop moves the pointer by all the bytes
taken from the slice so far, and does so after every write: the second offer starts where it
should, and the third one does not (`linkSendWbuf_writes_iff`).
-/

namespace ZenohPico.Transport

open Foundations Protocol List

/-! ### The source's functions -/

/-- A call of the write function of a link: what was offered, as a slice of the buffer, a position
in it and a number of bytes, and how many bytes were taken, with `none` for `SIZE_MAX`. -/
structure LinkCall where
  slice : ℕ
  start : ℕ
  count : ℕ
  written : Option ℕ
deriving DecidableEq, Repr

/-- The write function of a link: how many bytes it takes, by the number of the calls before and
the number of bytes offered. -/
abbrev LinkWriteF := ℕ → ℕ → Option ℕ

/-- A subtraction of `size_t` -/
def sizeSub (a b : ℕ) : ℕ := if b ≤ a then a - b else a + 0x10000000000000000 - b

/-- What the loop over a slice holds: the bytes that are left, the pointer, and the calls made -/
structure SliceWrite where
  n : ℕ
  start : ℕ
  calls : List LinkCall

/-- One pass of the loop over a slice of `len` bytes, after `before` calls for other slices. The
loop of `_z_link_send_wbuf` checks the number of bytes taken (`checked`). -/
def slicePass (write : LinkWriteF) (checked streamed : Bool) (before slice len : ℕ)
    (s : SliceWrite) : Pass SliceWrite (List LinkCall × Except ZError Unit) :=
  let written := write (before + s.calls.length) s.n
  let calls := s.calls ++ [⟨slice, s.start, s.n, written⟩]
  match written with
  | none => .done (calls, .error .transportTxFailed)
  | some wb =>
    if checked && decide (s.n < wb) then .done (calls, .error .transportTxFailed)
    else if streamed && wb != s.n then .done (calls, .error .transportTxFailed)
    else
      let n := sizeSub s.n wb
      if 0 < n then .next ⟨n, s.start + sizeSub len n, calls⟩ else .done (calls, .ok ())

/-- The loop over the slices of a buffer, given by their lengths -/
def slicesWrite (write : LinkWriteF) (checked streamed : Bool) (budget : ℕ) :
    ℕ → ℕ → List ℕ → Option (List LinkCall × Except ZError Unit)
  | _, _, [] => some ([], .ok ())
  | before, slice, len :: lens =>
    (runLoop (fun s ↦ some (slicePass write checked streamed before slice len s)) budget
      ⟨len, 0, []⟩).bind fun
        | (calls, .error e) => some (calls, .error e)
        | (calls, .ok ()) =>
          (slicesWrite write checked streamed budget (before + calls.length) (slice + 1) lens).map
            fun rest ↦ (calls ++ rest.1, rest.2)

/-- `_z_link_send_wbuf` -/
def linkSendWbuf (write : LinkWriteF) (streamed : Bool) (wbf : List ℕ) (budget : ℕ) :
    Option (List LinkCall × Except ZError Unit) :=
  slicesWrite write true streamed budget 0 0 wbf

/-- `_z_raweth_link_send_wbuf` -/
def rawethLinkSendWbuf (write : LinkWriteF) (wbf : List ℕ) (budget : ℕ) :
    Option (List LinkCall × Except ZError Unit) :=
  slicesWrite write false false budget 0 0 wbf

/-! ### Writing a buffer as it should be -/

/-- The bytes of a buffer, each as its slice and its position in it -/
def bufferBytes : ℕ → List ℕ → List (ℕ × ℕ)
  | _, [] => []
  | slice, len :: lens => (List.range len).map (fun k ↦ (slice, k)) ++ bufferBytes (slice + 1) lens

/-- The bytes that a call offers -/
def LinkCall.offered (call : LinkCall) : List (ℕ × ℕ) :=
  (List.range call.count).map fun k ↦ (call.slice, call.start + k)

/-- The bytes that a call takes -/
def LinkCall.taken (call : LinkCall) : List (ℕ × ℕ) :=
  (List.range (call.written.getD 0)).map fun k ↦ (call.slice, call.start + k)

/-- A write that fails, or on a streamed link one that is short -/
def LinkCall.Fails (streamed : Bool) (call : LinkCall) : Prop :=
  call.written = none ∨ (streamed = true ∧ call.written ≠ some call.count)

/-- The link takes the bytes of the buffer, each once and in order, is offered nothing else, and
the result tells whether a write has failed; without a failure all the bytes are taken. -/
structure WritesBuffer (streamed : Bool) (slice : ℕ) (lens : List ℕ) (calls : List LinkCall)
    (result : Except ZError Unit) : Prop where
  taken : calls.flatMap LinkCall.taken <+: bufferBytes slice lens
  offered : ∀ call ∈ calls, call.offered ⊆ bufferBytes slice lens
  complete : result = .ok () → calls.flatMap LinkCall.taken = bufferBytes slice lens
  failure : result = .error .transportTxFailed ↔ ∃ call ∈ calls, call.Fails streamed

/-- A write function that takes one byte at least, and no more than it is offered -/
def LinkWriteF.Partial (write : LinkWriteF) : Prop :=
  ∀ j n wb, write j n = some wb → wb ≤ n ∧ (0 < n → 0 < wb)

/-- The first two writes of every slice take all of it, or fail, or the first one is short on a
streamed link. -/
def TakenInTwo (write : LinkWriteF) (streamed : Bool) : ℕ → List ℕ → Prop
  | _, [] => True
  | before, len :: lens =>
    match write before len with
    | none => True
    | some first =>
      if first = len then TakenInTwo write streamed (before + 1) lens
      else if streamed then True
      else
        match write (before + 1) (len - first) with
        | none => True
        | some second => second = len - first ∧ TakenInTwo write streamed (before + 2) lens

/-! ### Bytes of a buffer -/

theorem sizeSub_of_le {a b : ℕ} (h : b ≤ a) : sizeSub a b = a - b := if_pos h

variable {lens : List ℕ}

theorem le_of_mem_bufferBytes {slice : ℕ} {byte : ℕ × ℕ} (h : byte ∈ bufferBytes slice lens) :
    slice ≤ byte.1 := by
  induction lens generalizing slice with
  | nil => cases h
  | cons len lens ih =>
    rcases mem_append.mp h with hhere | hlater
    · obtain ⟨k, -, rfl⟩ := mem_map.mp hhere
      exact le_rfl
    · exact (Nat.le_succ _).trans (ih hlater)

theorem mem_bufferBytes_cons {slice len k : ℕ} :
    (slice, k) ∈ bufferBytes slice (len :: lens) ↔ k < len := by
  rw [bufferBytes, mem_append, mem_map]
  constructor
  · rintro (⟨j, hj, heq⟩ | hlater)
    · cases heq
      exact mem_range.mp hj
    · exact absurd (le_of_mem_bufferBytes hlater) (Nat.not_succ_le_self _)
  · exact fun hk ↦ .inl ⟨k, mem_range.mpr hk, rfl⟩

/-- An offer inside its slice -/
theorem offered_subset {call : LinkCall} {len : ℕ} (h : call.start + call.count ≤ len) :
    call.offered ⊆ bufferBytes call.slice (len :: lens) := by
  intro byte hbyte
  obtain ⟨k, hk, rfl⟩ := mem_map.mp hbyte
  have hlt := mem_range.mp hk
  exact mem_bufferBytes_cons.mpr (by omega)

theorem range_map_add (slice a b : ℕ) :
    ((List.range a).map fun k ↦ (slice, k)) ++ ((List.range b).map fun k ↦ (slice, a + k)) =
      (List.range (a + b)).map fun k ↦ (slice, k) := by
  rw [range_add, map_append, map_map]
  rfl

/-- The bytes of the first slice come first. -/
theorem range_map_prefix {slice a len : ℕ} (h : a ≤ len) (lens : List ℕ) :
    ((List.range a).map fun k ↦ (slice, k)) <+: bufferBytes slice (len :: lens) := by
  obtain ⟨b, rfl⟩ := Nat.exists_eq_add_of_le h
  rw [bufferBytes, ← range_map_add, append_assoc]
  exact prefix_append _ _

/-! ### The loop over a slice -/

section Slice

variable {write : LinkWriteF} {checked streamed : Bool} {before slice len : ℕ}

/-- The body of the loop, which needs no budget of its own -/
def sliceBody (write : LinkWriteF) (checked streamed : Bool) (before slice len : ℕ) (_ : ℕ)
    (s : SliceWrite) : Option (Pass SliceWrite (List LinkCall × Except ZError Unit)) :=
  some (slicePass write checked streamed before slice len s)

theorem sliceBody_done {s : SliceWrite} {r : List LinkCall × Except ZError Unit}
    (h : slicePass write checked streamed before slice len s = .done r) :
    LoopComputes (sliceBody write checked streamed before slice len) s (some r) :=
  loopComputes_exit fun _ ↦ congrArg some h

theorem sliceBody_next {s t : SliceWrite} {o : Option (List LinkCall × Except ZError Unit)}
    (h : slicePass write checked streamed before slice len s = .next t)
    (ht : LoopComputes (sliceBody write checked streamed before slice len) t o) :
    LoopComputes (sliceBody write checked streamed before slice len) s o :=
  loopComputes_next (computes_const fun _ ↦ congrArg some h) ht

/-- What one write can do: it fails, or takes all that was offered, or is short. -/
theorem slicePass_cases (hwrite : write.Partial) (s : SliceWrite) :
    (write (before + s.calls.length) s.n = none ∧
      slicePass write checked streamed before slice len s =
        .done (s.calls ++ [⟨slice, s.start, s.n, none⟩], .error .transportTxFailed)) ∨
    (write (before + s.calls.length) s.n = some s.n ∧
      slicePass write checked streamed before slice len s =
        .done (s.calls ++ [⟨slice, s.start, s.n, some s.n⟩], .ok ())) ∨
    ∃ wb, write (before + s.calls.length) s.n = some wb ∧ 0 < wb ∧ wb < s.n ∧
      slicePass write checked streamed before slice len s =
        if streamed then
          .done (s.calls ++ [⟨slice, s.start, s.n, some wb⟩], .error .transportTxFailed)
        else .next ⟨s.n - wb, s.start + sizeSub len (s.n - wb),
          s.calls ++ [⟨slice, s.start, s.n, some wb⟩]⟩ := by
  cases hwb : write (before + s.calls.length) s.n with
  | none =>
    refine .inl ⟨rfl, ?_⟩
    unfold slicePass
    simp only [hwb]
  | some wb =>
    obtain ⟨hle, hpos⟩ := hwrite _ _ _ hwb
    have hover : (checked && decide (s.n < wb)) = false := by
      rw [decide_eq_false (by omega), Bool.and_false]
    rcases hle.eq_or_lt with rfl | hlt
    · refine .inr (.inl ⟨rfl, ?_⟩)
      have hdone : ¬ 0 < sizeSub s.n s.n := by
        rw [sizeSub_of_le le_rfl]
        omega
      unfold slicePass
      simp only [hwb, hover, bne_self_eq_false, Bool.and_false, hdone, if_false, Bool.false_eq_true]
    · refine .inr (.inr ⟨wb, rfl, hpos (by omega), hlt, ?_⟩)
      have hne : (wb != s.n) = true := bne_iff_ne.mpr hlt.ne
      have hleft : 0 < s.n - wb := by omega
      unfold slicePass
      simp only [hwb, hover, hne, Bool.and_true, sizeSub_of_le hle, hleft, if_true, if_false,
        Bool.false_eq_true]

/-- The loop ends whatever it starts with, and its first call is the one it starts with. -/
theorem sliceBody_computes (hwrite : write.Partial) (checked streamed : Bool)
    (before slice len n : ℕ) : ∀ (start : ℕ) (calls : List LinkCall), ∃ rest result,
      LoopComputes (sliceBody write checked streamed before slice len) ⟨n, start, calls⟩
        (some (calls ++ ⟨slice, start, n, write (before + calls.length) n⟩ :: rest, result)) := by
  induction n using Nat.strong_induction_on with
  | _ n ih =>
    intro start calls
    rcases slicePass_cases hwrite (⟨n, start, calls⟩ : SliceWrite) with
      ⟨hwb, hpass⟩ | ⟨hwb, hpass⟩ | ⟨wb, hwb, hpos, hlt, hpass⟩
    · exact ⟨[], _, hwb ▸ sliceBody_done hpass⟩
    · exact ⟨[], _, hwb ▸ sliceBody_done hpass⟩
    · cases streamed with
      | true => exact ⟨[], _, hwb ▸ sliceBody_done hpass⟩
      | false =>
        change wb < n at hlt
        obtain ⟨rest, result, hrest⟩ := ih (n - wb) (by omega)
          (start + sizeSub len (n - wb)) (calls ++ [⟨slice, start, n, some wb⟩])
        change write (before + calls.length) n = some wb at hwb
        rw [append_assoc, singleton_append] at hrest
        rw [hwb]
        exact ⟨_, result, sliceBody_next hpass hrest⟩

/-- How the loop over a slice can go -/
inductive SliceOutcome (write : LinkWriteF) (streamed : Bool) (before slice len : ℕ)
    (calls : List LinkCall) : Except ZError Unit → Prop
  /-- The slice is taken by one write or by two. -/
  | taken (htaken : calls.flatMap LinkCall.taken = (List.range len).map fun k ↦ (slice, k))
      (hfine : ∀ call ∈ calls, ¬ call.Fails streamed)
      (hinside : ∀ lens, ∀ call ∈ calls, call.offered ⊆ bufferBytes slice (len :: lens))
      (htwo : ∀ lens, TakenInTwo write streamed before (len :: lens) ↔
        TakenInTwo write streamed (before + calls.length) lens) :
      SliceOutcome write streamed before slice len calls (.ok ())
  /-- A write fails. -/
  | failed (hfails : ∃ call ∈ calls, call.Fails streamed)
      (htaken : ∀ lens, calls.flatMap LinkCall.taken <+: bufferBytes slice (len :: lens))
      (hinside : ∀ lens, ∀ call ∈ calls, call.offered ⊆ bufferBytes slice (len :: lens))
      (htwo : ∀ lens, TakenInTwo write streamed before (len :: lens)) :
      SliceOutcome write streamed before slice len calls (.error .transportTxFailed)
  /-- A third write is offered a byte that is not in the buffer. -/
  | pastEnd {result : Except ZError Unit}
      (hpast : ∃ call ∈ calls, ∃ k, len ≤ k ∧ (slice, k) ∈ call.offered)
      (htwo : ∀ lens, ¬ TakenInTwo write streamed before (len :: lens)) :
      SliceOutcome write streamed before slice len calls result

/-- The first write takes the slice. -/
theorem sliceOutcome_whole (hwb : write before len = some len) :
    SliceOutcome write streamed before slice len [⟨slice, 0, len, some len⟩] (.ok ()) := by
  refine .taken ?_ ?_ ?_ ?_
  · simp [LinkCall.taken]
  · intro call hcall
    obtain rfl := mem_singleton.mp hcall
    simp [LinkCall.Fails]
  · intro lens call hcall
    obtain rfl := mem_singleton.mp hcall
    exact offered_subset (Nat.zero_add len).le
  · intro lens
    rw [TakenInTwo, hwb]
    simp

/-- The first write fails. -/
theorem sliceOutcome_none (hwb : write before len = none) :
    SliceOutcome write streamed before slice len [⟨slice, 0, len, none⟩]
      (.error .transportTxFailed) := by
  refine .failed ⟨_, mem_singleton_self _, .inl rfl⟩ (fun lens ↦ nil_prefix) ?_ ?_
  · intro lens call hcall
    obtain rfl := mem_singleton.mp hcall
    exact offered_subset (Nat.zero_add len).le
  · intro lens
    rw [TakenInTwo, hwb]
    trivial

section Short

variable {wb : ℕ}

/-- Where the first write is short, the second one decides. -/
theorem takenInTwo_short (hwb : write before len = some wb) (hlt : wb < len) (lens : List ℕ) :
    TakenInTwo write streamed before (len :: lens) ↔
      (streamed = false → match write (before + 1) (len - wb) with
        | none => True
        | some second => second = len - wb ∧ TakenInTwo write streamed (before + 2) lens) := by
  rw [TakenInTwo, hwb]
  simp only
  rw [if_neg hlt.ne]
  cases streamed <;> simp

theorem sliceOutcome_streamed (hwb : write before len = some wb) (hlt : wb < len) :
    SliceOutcome write true before slice len [⟨slice, 0, len, some wb⟩]
      (.error .transportTxFailed) := by
  refine .failed ⟨_, mem_singleton_self _, .inr ⟨rfl, by simpa using hlt.ne⟩⟩ ?_ ?_ ?_
  · intro lens
    simpa [LinkCall.taken] using range_map_prefix hlt.le lens
  · intro lens call hcall
    obtain rfl := mem_singleton.mp hcall
    exact offered_subset (Nat.zero_add len).le
  · exact fun lens ↦ (takenInTwo_short hwb hlt lens).mpr fun h ↦ absurd h (by decide)

theorem offered_subset_two (hlt : wb < len) (written : Option ℕ) (lens : List ℕ) :
    ∀ call ∈ [⟨slice, 0, len, some wb⟩, ⟨slice, wb, len - wb, written⟩],
      LinkCall.offered call ⊆ bufferBytes slice (len :: lens) := by
  intro call hcall
  rcases mem_pair.mp hcall with rfl | rfl
  · exact offered_subset (Nat.zero_add len).le
  · exact offered_subset (Nat.add_sub_of_le hlt.le).le

/-- The second write takes the rest of the slice. -/
theorem sliceOutcome_two (hwb : write before len = some wb) (hlt : wb < len)
    (hwb₂ : write (before + 1) (len - wb) = some (len - wb)) :
    SliceOutcome write false before slice len
      [⟨slice, 0, len, some wb⟩, ⟨slice, wb, len - wb, some (len - wb)⟩] (.ok ()) := by
  refine .taken ?_ ?_ (offered_subset_two hlt _) ?_
  · have hall := range_map_add slice wb (len - wb)
    rw [Nat.add_sub_of_le hlt.le] at hall
    simpa [LinkCall.taken] using hall
  · intro call hcall
    rcases mem_pair.mp hcall with rfl | rfl <;> simp [LinkCall.Fails]
  · intro lens
    rw [takenInTwo_short hwb hlt, hwb₂]
    simp

/-- The second write fails. -/
theorem sliceOutcome_two_none (hwb : write before len = some wb) (hlt : wb < len)
    (hwb₂ : write (before + 1) (len - wb) = none) : SliceOutcome write false before slice len
      [⟨slice, 0, len, some wb⟩, ⟨slice, wb, len - wb, none⟩] (.error .transportTxFailed) := by
  refine .failed ⟨_, mem_append_right [_] (mem_singleton_self _), .inl rfl⟩ ?_
    (offered_subset_two hlt none) ?_
  · intro lens
    simpa [LinkCall.taken] using range_map_prefix hlt.le lens
  · intro lens
    rw [takenInTwo_short hwb hlt, hwb₂]
    exact fun _ ↦ trivial

/-- The second write is short as well: the third offer starts at the first write's bytes counted
twice. -/
theorem sliceOutcome_three {wb₂ : ℕ} (hwb : write before len = some wb) (hpos : 0 < wb)
    (hlt : wb < len) (hwb₂ : write (before + 1) (len - wb) = some wb₂) (hlt₂ : wb₂ < len - wb)
    {front rest : List LinkCall} (written : Option ℕ) (result : Except ZError Unit) :
    SliceOutcome write false before slice len
      (front ++ ⟨slice, wb + sizeSub len (len - wb - wb₂), len - wb - wb₂, written⟩ :: rest)
      result := by
  refine .pastEnd ⟨_, mem_append_right _ mem_cons_self, len + wb - 1, by omega, ?_⟩ ?_
  · rw [LinkCall.offered, mem_map]
    refine ⟨len - wb - wb₂ - 1, mem_range.mpr ?_, ?_⟩
    · change len - wb - wb₂ - 1 < len - wb - wb₂
      omega
    · change (slice, wb + sizeSub len (len - wb - wb₂) + (len - wb - wb₂ - 1)) = _
      rw [sizeSub_of_le (by omega)]
      congr 1
      omega
  · intro lens h
    have hmatch := (takenInTwo_short hwb hlt lens).mp h rfl
    rw [hwb₂] at hmatch
    exact absurd hmatch.1 hlt₂.ne

end Short

theorem slice_cases (hwrite : write.Partial) (checked streamed : Bool) (before slice len : ℕ) :
    ∃ calls result, LoopComputes (sliceBody write checked streamed before slice len) ⟨len, 0, []⟩
        (some (calls, result)) ∧ SliceOutcome write streamed before slice len calls result := by
  rcases slicePass_cases hwrite (⟨len, 0, []⟩ : SliceWrite) with
    ⟨hwb, hpass⟩ | ⟨hwb, hpass⟩ | ⟨wb, hwb, hpos, hlt, hpass⟩
  · exact ⟨_, _, sliceBody_done hpass, sliceOutcome_none hwb⟩
  · exact ⟨_, _, sliceBody_done hpass, sliceOutcome_whole hwb⟩
  · change write before len = some wb at hwb
    change wb < len at hlt
    cases streamed with
    | true => exact ⟨_, _, sliceBody_done hpass, sliceOutcome_streamed hwb hlt⟩
    | false =>
      have hfirst : slicePass write checked false before slice len ⟨len, 0, []⟩ =
          .next ⟨len - wb, wb, [⟨slice, 0, len, some wb⟩]⟩ := by
        have hstart : 0 + sizeSub len (len - wb) = wb := by
          rw [sizeSub_of_le (Nat.sub_le _ _)]
          omega
        rw [hpass, if_neg Bool.false_ne_true, hstart]
        rfl
      rcases slicePass_cases hwrite
          (⟨len - wb, wb, [⟨slice, 0, len, some wb⟩]⟩ : SliceWrite) with
        ⟨hwb₂, hpass₂⟩ | ⟨hwb₂, hpass₂⟩ | ⟨wb₂, hwb₂, hpos₂, hlt₂, hpass₂⟩
      · exact ⟨_, _, sliceBody_next hfirst (sliceBody_done hpass₂),
          sliceOutcome_two_none hwb hlt hwb₂⟩
      · exact ⟨_, _, sliceBody_next hfirst (sliceBody_done hpass₂), sliceOutcome_two hwb hlt hwb₂⟩
      · obtain ⟨rest, result, hrest⟩ := sliceBody_computes hwrite checked false before slice len
          (len - wb - wb₂) (wb + sizeSub len (len - wb - wb₂))
          [⟨slice, 0, len, some wb⟩, ⟨slice, wb, len - wb, some wb₂⟩]
        exact ⟨_, _, sliceBody_next hfirst (sliceBody_next hpass₂ hrest),
          sliceOutcome_three hwb hpos hlt hwb₂ hlt₂ _ result⟩

end Slice

/-! ### The loop over the slices -/

section Slices

variable {write : LinkWriteF} {checked streamed : Bool}

/-- A slice that was taken, before the rest of the buffer -/
theorem WritesBuffer.cons {slice len : ℕ} {lens : List ℕ} {calls rest : List LinkCall}
    {result : Except ZError Unit}
    (htaken : calls.flatMap LinkCall.taken = (List.range len).map (fun k ↦ (slice, k)))
    (hfine : ∀ call ∈ calls, ¬ call.Fails streamed)
    (hinside : ∀ call ∈ calls, call.offered ⊆ bufferBytes slice (len :: lens))
    (hrest : WritesBuffer streamed (slice + 1) lens rest result) :
    WritesBuffer streamed slice (len :: lens) (calls ++ rest) result where
  taken := by
    rw [flatMap_append, htaken, bufferBytes]
    exact (prefix_append_right_inj _).mpr hrest.taken
  offered call hcall := by
    rcases mem_append.mp hcall with hhere | hlater
    · exact hinside call hhere
    · exact List.Subset.trans (hrest.offered call hlater) (subset_append_right _ _)
  complete hok := by
    rw [flatMap_append, htaken, bufferBytes, hrest.complete hok]
  failure := by
    rw [hrest.failure]
    constructor
    · rintro ⟨call, hcall, hfails⟩
      exact ⟨call, mem_append_right _ hcall, hfails⟩
    · rintro ⟨call, hcall, hfails⟩
      rcases mem_append.mp hcall with hhere | hlater
      · exact absurd hfails (hfine call hhere)
      · exact ⟨call, hlater, hfails⟩

/-- The loops end, and write the buffer as they should exactly when no slice needs a third
write; else some byte is offered that is not in the buffer. -/
theorem slicesWrite_cases (hwrite : write.Partial) (checked streamed : Bool) (lens : List ℕ) :
    ∀ before slice, ∃ calls result,
      Computes (fun budget ↦ slicesWrite write checked streamed budget before slice lens)
        (some (calls, result)) ∧ ((TakenInTwo write streamed before lens ∧
          WritesBuffer streamed slice lens calls result) ∨
        (¬ TakenInTwo write streamed before lens ∧
          ∃ call ∈ calls, ∃ byte ∈ call.offered, slice ≤ byte.1 ∧
            byte ∉ bufferBytes slice lens)) := by
  induction lens with
  | nil =>
    intro before slice
    refine ⟨[], .ok (), computes_const fun _ ↦ rfl, .inl ⟨trivial, ?_⟩⟩
    constructor <;> simp [bufferBytes]
  | cons len lens ih =>
    intro before slice
    obtain ⟨calls, result, hloop, hcases⟩ := slice_cases hwrite checked streamed before slice len
    obtain ⟨rest, last, hrest, hlast⟩ := ih (before + calls.length) (slice + 1)
    -- what follows a byte past the end does not matter
    have hpast (hpast : ∃ call ∈ calls, ∃ k, len ≤ k ∧ (slice, k) ∈ call.offered)
        {all : List LinkCall} (hall : calls ⊆ all) : ∃ call ∈ all, ∃ byte ∈ call.offered,
          slice ≤ byte.1 ∧ byte ∉ bufferBytes slice (len :: lens) := by
      obtain ⟨call, hcall, k, hk, hoffered⟩ := hpast
      exact ⟨call, hall hcall, _, hoffered, le_rfl, fun hmem ↦
        absurd (mem_bufferBytes_cons.mp hmem) (not_lt.mpr hk)⟩
    cases result with
    | error e =>
      refine ⟨calls, .error e, ?_, ?_⟩
      · exact hloop.computes.bind (h := fun r ↦ some r) fun r hr ↦ by
          cases hr
          exact computes_const fun _ ↦ rfl
      · cases hcases with
        | failed hfails htaken hinside htwo =>
          refine .inl ⟨htwo lens, htaken lens, hinside lens, fun h ↦ ?_, iff_of_true rfl hfails⟩
          cases h
        | pastEnd hbyte htwo => exact .inr ⟨htwo lens, hpast hbyte (List.Subset.refl _)⟩
    | ok u =>
      refine ⟨calls ++ rest, last, ?_, ?_⟩
      · exact hloop.computes.bind (h := fun r ↦ some (calls ++ rest, last)) fun r hr ↦ by
          cases hr
          exact hrest.map fun rest ↦ (calls ++ rest.1, rest.2)
      · cases hcases with
        | taken htaken hfine hinside htwo =>
          rw [htwo lens]
          rcases hlast with ⟨hrestTwo, hwrites⟩ | ⟨hnot, call, hcall, byte, hbyte, hle, hout⟩
          · exact .inl ⟨hrestTwo, hwrites.cons htaken hfine (hinside lens)⟩
          · refine .inr ⟨hnot, call, mem_append_right _ hcall, byte, hbyte, by omega, ?_⟩
            rw [bufferBytes, mem_append, mem_map]
            rintro (⟨k, -, rfl⟩ | hmem)
            · exact absurd hle (Nat.not_succ_le_self _)
            · exact hout hmem
        | pastEnd hbyte htwo =>
          exact .inr ⟨htwo lens, hpast hbyte (subset_append_left _ _)⟩

end Slices

/-- A loop ends with the buffer written as it should be. -/
def WritesWhole (streamed : Bool) (lens : List ℕ)
    (f : ℕ → Option (List LinkCall × Except ZError Unit)) : Prop :=
  ∃ calls result, Settles f (calls, result) ∧ WritesBuffer streamed 0 lens calls result

theorem slicesWrite_iff {write : LinkWriteF} (hwrite : write.Partial) (checked streamed : Bool)
    (wbf : List ℕ) :
    WritesWhole streamed wbf (fun budget ↦ slicesWrite write checked streamed budget 0 0 wbf) ↔
      TakenInTwo write streamed 0 wbf := by
  obtain ⟨calls, result, hcomputes, hcases⟩ :=
    slicesWrite_cases hwrite checked streamed wbf 0 0
  rcases hcases with ⟨htwo, hwrites⟩ | ⟨hnot, call, hcall, byte, hbyte, -, hout⟩
  · exact iff_of_true ⟨calls, result, hcomputes.settles, hwrites⟩ htwo
  · refine iff_of_false ?_ hnot
    rintro ⟨calls', result', ⟨budget, hsettles⟩, hwrites⟩
    have heq := hcomputes.eq_of_eq_some (hsettles budget le_rfl)
    cases heq
    exact hout (hwrites.offered call hcall hbyte)

/-- Both functions write every buffer as they should over a link whose first two writes of each
slice take all of it, unless one of them fails, and over no other one. A streamed link is always
of this kind. -/
theorem linkSendWbuf_writes_iff {write : LinkWriteF} (hwrite : write.Partial) (wbf : List ℕ) :
    (∀ streamed, WritesWhole streamed wbf (linkSendWbuf write streamed wbf) ↔
        TakenInTwo write streamed 0 wbf) ∧
      (WritesWhole false wbf (rawethLinkSendWbuf write wbf) ↔ TakenInTwo write false 0 wbf) :=
  ⟨fun streamed ↦ slicesWrite_iff hwrite true streamed wbf, slicesWrite_iff hwrite false false wbf⟩

/-- A link that takes two bytes at a time -/
def pairWriteF : LinkWriteF := fun _ n ↦ some (min n 2)

/-- Three slices, of which the first and the last one are taken by two writes each -/
theorem linkSendWbuf_writes_whole :
    (∀ streamed, WritesWhole streamed [3, 2, 4] (linkSendWbuf pairWriteF streamed [3, 2, 4])) ∧
      WritesWhole false [3, 2, 4] (rawethLinkSendWbuf pairWriteF [3, 2, 4]) ∧
      linkSendWbuf pairWriteF false [3, 2, 4] 3 =
        some ([⟨0, 0, 3, some 2⟩, ⟨0, 2, 1, some 1⟩, ⟨1, 0, 2, some 2⟩, ⟨2, 0, 4, some 2⟩,
          ⟨2, 2, 2, some 2⟩], .ok ()) := by
  have hpartial : pairWriteF.Partial := by
    intro j n wb h
    cases h
    exact ⟨min_le_left _ _, fun hn ↦ lt_min hn Nat.two_pos⟩
  obtain ⟨hlink, hraweth⟩ := linkSendWbuf_writes_iff hpartial [3, 2, 4]
  have htwo (streamed : Bool) : TakenInTwo pairWriteF streamed 0 [3, 2, 4] := by
    cases streamed <;> simp [TakenInTwo, pairWriteF]
  exact ⟨fun streamed ↦ (hlink streamed).mpr (htwo streamed), hraweth.mpr (htwo false), by rfl⟩

/-- A link that takes one byte at a time -/
def byteWriteF : LinkWriteF := fun _ n ↦ some (min n 1)

/-- Three bytes taken one at a time: the third write is offered the byte after them. -/
theorem linkSendWbuf_third : ¬ WritesWhole false [3] (linkSendWbuf byteWriteF false [3]) ∧
      ¬ WritesWhole false [3] (rawethLinkSendWbuf byteWriteF [3]) ∧
      linkSendWbuf byteWriteF false [3] 3 =
        some ([⟨0, 0, 3, some 1⟩, ⟨0, 1, 2, some 1⟩, ⟨0, 3, 1, some 1⟩], .ok ()) := by
  have hpartial : byteWriteF.Partial := by
    intro j n wb h
    cases h
    exact ⟨min_le_left _ _, fun hn ↦ lt_min hn Nat.one_pos⟩
  have htwo : ¬ TakenInTwo byteWriteF false 0 [3] := by simp [TakenInTwo, byteWriteF]
  exact ⟨fun h ↦ htwo ((slicesWrite_iff hpartial true false [3]).mp h),
    fun h ↦ htwo ((slicesWrite_iff hpartial false false [3]).mp h), by rfl⟩

end ZenohPico.Transport
