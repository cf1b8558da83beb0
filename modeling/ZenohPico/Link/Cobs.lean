import ZenohPico.Foundations.RunBlocks

/-!
Consistent overhead byte stuffing (`src/utils/encoding.c`).

The bytes of a frame are cut at its zeros and after every 254 others, and each run is written behind
a code, its length and one more. A frame that ends with a run of 254 bytes has an empty run behind
it, so the last code is never the one that no zero belongs to.
-/

namespace ZenohPico.Link

open Foundations List

/-! ### The source's functions -/

/-- The variables of the loop of `_z_cobs_encode`: the output before `pos`, and the place in it that
is kept for the code of the run -/
structure CobsEncoder where
  output : List UInt8
  codep : ℕ
  code : UInt8
deriving DecidableEq, Repr

/-- A byte is put in the run. -/
def CobsEncoder.put (s : CobsEncoder) (byte : UInt8) : CobsEncoder :=
  { s with output := s.output ++ [byte], code := s.code + 1 }

/-- The code of the run is put in its place, and the next byte is kept for the code of another
run. -/
def CobsEncoder.close (s : CobsEncoder) : CobsEncoder where
  output := s.output.set s.codep s.code ++ [0]
  codep := s.output.length
  code := 1

/-- A pass of the loop of `_z_cobs_encode`. The test of `len` does not show: it counts the byte of
this pass, and is never 0. -/
def CobsEncoder.pass (s : CobsEncoder) (byte : UInt8) : CobsEncoder :=
  let s := if byte ≠ 0 then s.put byte else s
  if byte = 0 ∨ s.code = 0xFF then s.close else s

/-- `_z_cobs_encode` -/
def cobsEncode (input : List UInt8) : List UInt8 :=
  let s := input.foldl CobsEncoder.pass ⟨[0], 0, 1⟩
  s.output.set s.codep s.code

/-- The variables of the loop of `_z_cobs_decode` -/
structure CobsDecoder where
  output : List UInt8
  code : UInt8
  block : UInt8
deriving DecidableEq, Repr

/-- The loop of `_z_cobs_decode`, without a result where `pos` ends up before the output -/
def CobsDecoder.run : List UInt8 → CobsDecoder → Option (List UInt8)
  | [], s => some s.output
  | byte :: input, s =>
    if s.block ≠ 0 then run input { s with output := s.output ++ [byte], block := s.block - 1 }
    else
      let output := if s.code ≠ 0xFF then s.output ++ [0] else s.output
      if byte = 0 then
        if output = [] then none else some output.dropLast
      else run input ⟨output, byte, byte - 1⟩

/-- `_z_cobs_decode` -/
def cobsDecode (input : List UInt8) : Option (List UInt8) :=
  CobsDecoder.run input ⟨[], 0xFF, 0⟩

/-! ### Runs with codes -/

/-- The length of the longest run -/
abbrev cobsBound : ℕ := 254

/-- The code of a run -/
def cobsCode (run : List UInt8) : UInt8 := .ofNat (run.length + 1)

/-- The runs, each behind its code -/
def stuffed (runs : List (List UInt8)) : List UInt8 := runs.flatMap fun run ↦ cobsCode run :: run

/-- The runs of a frame -/
def cobsRuns (input : List UInt8) : List (List UInt8) := runsFrom 0 cobsBound [] input

variable {run : List UInt8}

theorem cobsCode_toNat (h : run.length ≤ cobsBound) : (cobsCode run).toNat = run.length + 1 := by
  unfold cobsBound at h
  rw [cobsCode, UInt8.toNat_ofNat', Nat.mod_eq_of_lt (by omega)]

theorem cobsCode_ne_zero {run : List UInt8} (h : run.length ≤ cobsBound) : cobsCode run ≠ 0 := by
  intro hzero
  have hcode := cobsCode_toNat h
  rw [hzero] at hcode
  exact absurd hcode.symm (Nat.succ_ne_zero _)

theorem cobsCode_eq_full {run : List UInt8} (h : run.length ≤ cobsBound) :
    cobsCode run = 0xFF ↔ run.length = cobsBound := by
  have hfull : (0xFF : UInt8).toNat = 255 := rfl
  rw [← UInt8.toNat_inj, cobsCode_toNat h, hfull]
  unfold cobsBound
  omega

/-- The code counts on with the run. -/
theorem cobsCode_concat (run : List UInt8) (byte : UInt8) :
    cobsCode (run ++ [byte]) = cobsCode run + 1 := by
  rw [cobsCode, length_append, length_singleton, UInt8.ofNat_add]
  rfl

/-! ### Encoding -/

/-- The encoder in the middle of a run, with `before` in front of it -/
def CobsEncoder.at (before run : List UInt8) : CobsEncoder :=
  ⟨before ++ 0 :: run, before.length, cobsCode run⟩

theorem CobsEncoder.output_at (before run : List UInt8) :
    (before ++ 0 :: run).set before.length (cobsCode run) = before ++ cobsCode run :: run := by
  rw [set_append_right _ _ (Nat.le_refl _), Nat.sub_self, set_cons_zero]

theorem CobsEncoder.put_at (before run : List UInt8) (byte : UInt8) :
    (CobsEncoder.at before run).put byte = CobsEncoder.at before (run ++ [byte]) := by
  rw [CobsEncoder.at, CobsEncoder.at, put, cobsCode_concat, append_assoc, cons_append]

theorem CobsEncoder.close_at (before run : List UInt8) :
    (CobsEncoder.at before run).close = CobsEncoder.at (before ++ cobsCode run :: run) [] := by
  rw [CobsEncoder.at, CobsEncoder.at, close, output_at, length_append, length_append]
  rfl

theorem CobsEncoder.pass_zero (s : CobsEncoder) : s.pass 0 = s.close := by
  simp only [pass, ne_eq, not_true_eq_false, if_false, true_or, if_true]

theorem CobsEncoder.pass_byte (s : CobsEncoder) {byte : UInt8} (hbyte : byte ≠ 0) :
    s.pass byte = if (s.put byte).code = 0xFF then (s.put byte).close else s.put byte := by
  simp only [pass, ne_eq, hbyte, not_false_eq_true, if_true, false_or]

theorem CobsEncoder.pass_at (before : List UInt8) {byte : UInt8} (hrun : run.length < cobsBound)
    (hbyte : byte ≠ 0) : (CobsEncoder.at before run).pass byte =
      if run.length + 1 = cobsBound then
        CobsEncoder.at (before ++ cobsCode (run ++ [byte]) :: (run ++ [byte])) []
      else CobsEncoder.at before (run ++ [byte]) := by
  have hlen : (run ++ [byte]).length = run.length + 1 := by
    rw [length_append, length_singleton]
  have hfull := @cobsCode_eq_full (run ++ [byte]) (by rw [hlen]; exact hrun)
  rw [hlen] at hfull
  rw [pass_byte _ hbyte, put_at, close_at]
  exact if_congr hfull rfl rfl

/-- What the encoder puts behind what it has written -/
theorem CobsEncoder.output_foldl (input before : List UInt8) (hrun : run.length < cobsBound) :
    let s := input.foldl CobsEncoder.pass (CobsEncoder.at before run)
    s.output.set s.codep s.code = before ++ stuffed (runsFrom 0 cobsBound run input) := by
  induction input generalizing before run with
  | nil =>
    rw [foldl_nil, runsFrom, stuffed, flatMap_singleton, CobsEncoder.at]
    exact output_at before run
  | cons byte input ih =>
    rw [foldl_cons, runsFrom]
    by_cases hzero : byte = 0
    · subst hzero
      rw [pass_zero, close_at, if_pos rfl, stuffed, flatMap_cons, ← append_assoc]
      exact ih _ (Nat.zero_lt_succ _)
    · rw [pass_at before hrun hzero, if_neg hzero]
      by_cases hend : run.length + 1 = cobsBound
      · rw [if_pos hend, if_pos hend, stuffed, flatMap_cons, ← append_assoc]
        exact ih _ (Nat.zero_lt_succ _)
      · rw [if_neg hend, if_neg hend]
        refine ih before ?_
        rw [length_append, length_singleton]
        omega

theorem cobsEncode_eq (input : List UInt8) : cobsEncode input = stuffed (cobsRuns input) :=
  CobsEncoder.output_foldl input [] (Nat.zero_lt_succ _)

theorem length_stuffed (runs : List (List UInt8)) :
    (stuffed runs).length = runs.length + runs.flatten.length := by
  induction runs with
  | nil => rfl
  | cons run runs ih =>
    rw [stuffed, flatMap_cons, length_append, length_cons, length_cons,
      flatten_cons, length_append, ← stuffed, ih]
    omega

/-- An encoded frame is longer than the frame by one, and by one more for each run of 254 bytes. -/
theorem length_cobsEncode (input : List UInt8) :
    (cobsEncode input).length = input.length + fullRuns 0 cobsBound 0 input + 1 := by
  rw [cobsEncode_eq, length_stuffed, cobsRuns, length_runsFrom, length_nil]
  omega

theorem zero_notMem_cobsEncode (input : List UInt8) : 0 ∉ cobsEncode input := by
  rw [cobsEncode_eq, stuffed, mem_flatMap]
  rintro ⟨run, hrun, hzero⟩
  obtain ⟨hmark, hlen⟩ := mem_runsFrom (Nat.zero_lt_succ _) not_mem_nil hrun
  rcases mem_cons.mp hzero with hcode | hmem
  · exact cobsCode_ne_zero hlen hcode.symm
  · exact hmark hmem

/-! ### Decoding -/

/-- A run is copied. -/
theorem CobsDecoder.run_block (run rest output : List UInt8) (code : UInt8)
    (h : run.length ≤ cobsBound) : CobsDecoder.run (run ++ rest) ⟨output, code, .ofNat run.length⟩ =
      CobsDecoder.run rest ⟨output ++ run, code, 0⟩ := by
  induction run generalizing output with
  | nil => rw [nil_append, append_nil]; rfl
  | cons byte run ih =>
    rw [length_cons] at h
    unfold cobsBound at h
    have hblock : UInt8.ofNat (run.length + 1) ≠ 0 := @cobsCode_ne_zero run (by unfold cobsBound; omega)
    have hprev : UInt8.ofNat (run.length + 1) - 1 = .ofNat run.length := by
      rw [UInt8.ofNat_add]
      exact UInt8.add_sub_cancel _ _
    rw [cons_append, CobsDecoder.run, length_cons, if_pos hblock]
    dsimp only
    rw [hprev, ih _ (by unfold cobsBound; omega), append_assoc, singleton_append]

/-- A code, and the run behind it -/
theorem CobsDecoder.run_stuffed_cons (rest output : List UInt8) (code : UInt8)
    (h : run.length ≤ cobsBound) : CobsDecoder.run (cobsCode run :: run ++ rest) ⟨output, code, 0⟩ =
      CobsDecoder.run rest
        ⟨output ++ (if code ≠ 0xFF then [0] else []) ++ run, cobsCode run, 0⟩ := by
  have hprev : cobsCode run - 1 = .ofNat run.length := by
    rw [cobsCode, UInt8.ofNat_add]
    exact UInt8.add_sub_cancel _ _
  rw [cons_append, CobsDecoder.run, if_neg (fun hne ↦ hne rfl)]
  dsimp only
  rw [if_neg (cobsCode_ne_zero h), hprev, run_block run rest _ _ h]
  split_ifs
  · rfl
  · rw [append_nil]

/-- What the decoder makes of runs whose last one does not reach the bound, with or without a zero
behind them -/
theorem CobsDecoder.run_stuffed {runs : List (List UInt8)} (hne : runs ≠ [])
    (hlen : ∀ run ∈ runs, run.length ≤ cobsBound)
    (hlast : ∀ run ∈ runs.getLast?, run.length < cobsBound) {tail : List UInt8}
    (htail : tail = [] ∨ tail = [0]) (output : List UInt8) (code : UInt8) :
    CobsDecoder.run (stuffed runs ++ tail) ⟨output, code, 0⟩ =
      some (output ++ (if code ≠ 0xFF then [0] else []) ++ joinRuns 0 cobsBound runs) := by
  induction runs generalizing output code with
  | nil => exact absurd rfl hne
  | cons run runs ih =>
    have hrun := hlen run mem_cons_self
    rw [stuffed, flatMap_cons, append_assoc, run_stuffed_cons _ _ _ hrun]
    cases runs with
    | nil =>
      have hcode : cobsCode run ≠ 0xFF := by
        rw [Ne, cobsCode_eq_full hrun]
        exact Nat.ne_of_lt (hlast run rfl)
      rw [flatMap_nil, nil_append, joinRuns]
      rcases htail with rfl | rfl
      · rfl
      · rw [CobsDecoder.run, if_neg (fun hne ↦ hne rfl)]
        dsimp only
        rw [if_pos rfl, if_pos hcode, if_neg (append_ne_nil_of_right_ne_nil _
          (cons_ne_nil _ _)), dropLast_concat]
    | cons run' runs =>
      have hstep := ih (cons_ne_nil _ _) (fun r hr ↦ hlen r (mem_cons_of_mem _ hr))
        (fun r hr ↦ hlast r (by rwa [List.getLast?_cons_cons]))
      rw [← stuffed, hstep, joinRuns]
      congr 1
      by_cases hfull : run.length = cobsBound
      · rw [if_pos hfull, if_neg (not_not_intro ((cobsCode_eq_full hrun).mpr hfull))]
        simp only [append_assoc, nil_append]
      · rw [if_neg hfull, if_pos (fun hcode ↦ hfull ((cobsCode_eq_full hrun).mp hcode))]
        simp only [append_assoc]

/-- The last run of a frame does not reach the bound. -/
theorem length_getLast_runsFrom {input : List UInt8} (hrun : run.length < cobsBound) :
    ∀ last ∈ (runsFrom 0 cobsBound run input).getLast?, last.length < cobsBound := by
  induction input generalizing run with
  | nil =>
    intro last hlast
    obtain rfl := Option.some.inj hlast
    exact hrun
  | cons byte input ih =>
    have hnil := @ih [] (Nat.zero_lt_succ _)
    rw [runsFrom]
    split_ifs
    · rwa [List.getLast?_cons_of_ne_nil runsFrom_ne_nil]
    · rwa [List.getLast?_cons_of_ne_nil runsFrom_ne_nil]
    · refine ih ?_
      rw [length_append, length_singleton]
      omega

/-- A frame that is encoded is decoded, also with the zero that marks its end. -/
theorem cobsDecode_cobsEncode (input : List UInt8) {tail : List UInt8}
    (htail : tail = [] ∨ tail = [0]) : cobsDecode (cobsEncode input ++ tail) = some input := by
  have hbound : 0 < cobsBound := Nat.zero_lt_succ _
  rw [cobsDecode, cobsEncode_eq, cobsRuns, CobsDecoder.run_stuffed runsFrom_ne_nil
    (fun run hrun ↦ (mem_runsFrom hbound not_mem_nil hrun).2)
    (length_getLast_runsFrom hbound) htail, if_neg (not_not_intro rfl), joinRuns_runs hbound]
  rfl

/-- An encoded frame has no zero, is longer than the frame by one and one for each 254 bytes at
most, and is decoded to the frame. -/
theorem cobsEncode_spec (input : List UInt8) : 0 ∉ cobsEncode input ∧
      (cobsEncode input).length ≤ input.length + input.length / 254 + 1 ∧
      cobsDecode (cobsEncode input) = some input ∧
      cobsDecode (cobsEncode input ++ [0]) = some input := by
  refine ⟨zero_notMem_cobsEncode input, ?_, ?_, cobsDecode_cobsEncode input (Or.inr rfl)⟩
  · have hruns := mul_fullRuns_le (0 : UInt8) 254 0 input
    rw [length_cobsEncode]
    unfold cobsBound
    omega
  · have hdecode := cobsDecode_cobsEncode input (Or.inl rfl)
    rwa [append_nil] at hdecode

/-- A run of 254 bytes has an empty one behind it. -/
example : cobsEncode (List.replicate 254 7) = 0xFF :: (List.replicate 254 7 ++ [1]) := by
  decide +kernel

end ZenohPico.Link
