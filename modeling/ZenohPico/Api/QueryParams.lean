import ZenohPico.Api.AdvancedCache
import ZenohPico.Collections.SplitString
import ZenohPico.Session.QueryParameters

/-!
The parameters of a recovery query, which an advanced subscriber writes
(`src/api/advanced_subscriber.c`) and an advanced cache reads (`src/utils/query_params.c`,
`src/collections/advanced_cache.c`).

The writer gives up unless the whole text and its terminator fit. The reader takes the numbers of
the range as they were written; it reads the number of samples with 32 bits, and takes one that does
not fit for none at all.

The text of a time range, which has floating point numbers in it, is a parameter in both directions.
-/

open List

namespace ZenohPico.Api

open Foundations Collections Session

/-- `_Z_QUERY_PARAMS_FIELD_SEPARATOR` -/
def fieldSeparator : UInt8 := 0x3D

/-- `_Z_QUERY_PARAMS_KEY_TIME` -/
def keyTime : List UInt8 := [0x5F, 0x74, 0x69, 0x6D, 0x65]

/-- `_Z_QUERY_PARAMS_KEY_RANGE` -/
def keyRange : List UInt8 := [0x5F, 0x73, 0x6E]

/-- `_Z_QUERY_PARAMS_KEY_MAX` -/
def keyMax : List UInt8 := [0x5F, 0x6D, 0x61, 0x78]

/-- The dots between the ends of a range -/
def rangeDots : List UInt8 := [0x2E, 0x2E]

/-- `_z_query_param_range_t`, each end with its flag -/
structure QueryParamRange where
  start : Option UInt32
  stop : Option UInt32
deriving DecidableEq, Repr

/-! ### The writer -/

section Writer

variable (bufLen : ℕ)

/-- `_z_memcpy_checked` behind what has been written to a buffer -/
def memcpyChecked (src buf : List UInt8) : Option (List UInt8) :=
  if bufLen - buf.length < src.length then none else some (buf ++ src)

/-- `snprintf` behind what has been written to a buffer, with the check of its result -/
def snprintfChecked (text buf : List UInt8) : Option (List UInt8) :=
  if bufLen - buf.length ≤ text.length then none else some (buf ++ text)

/-- A parameter up to its value -/
def populateKey (key buf : List UInt8) : Option (List UInt8) := do
  let buf ← memcpyChecked bufLen [listSeparator] buf
  let buf ← memcpyChecked bufLen key buf
  memcpyChecked bufLen [fieldSeparator] buf

/-- The number of samples, if there is one to write -/
def populateMax (maxSamples : UInt64) (buf : List UInt8) : Option (List UInt8) :=
  if 0 < maxSamples then do
    let buf ← populateKey bufLen keyMax buf
    snprintfChecked bufLen (decimal maxSamples.toNat) buf
  else some buf

/-- An end of the range, if there is one to write -/
def populateNumber (number : Option UInt32) (buf : List UInt8) : Option (List UInt8) :=
  match number with
  | some number => snprintfChecked bufLen (decimal number.toNat) buf
  | none => some buf

/-- The range, if there is one to write -/
def populateRange (seqRange : Option QueryParamRange) (buf : List UInt8) : Option (List UInt8) :=
  match seqRange with
  | some range => do
    let buf ← populateKey bufLen keyRange buf
    let buf ← populateNumber bufLen range.start buf
    let buf ← memcpyChecked bufLen rangeDots buf
    populateNumber bufLen range.stop buf
  | none => some buf

/- `_z_time_range_to_str` of the range up to an age, for so many bytes of a buffer -/
variable (timeRangeToStr : UInt64 → ℕ → Option (List UInt8))

/-- The age, if there is one to write -/
def populateAge (maxAgeMs : UInt64) (buf : List UInt8) : Option (List UInt8) :=
  if 0 < maxAgeMs then do
    let buf ← populateKey bufLen keyTime buf
    let text ← timeRangeToStr maxAgeMs (bufLen - buf.length)
    if bufLen - buf.length ≤ text.length then none else some (buf ++ text)
  else some buf

/-- `_ze_advanced_subscriber_populate_query_params`: the string in the buffer -/
def populateQueryParams (maxSamples maxAgeMs : UInt64) (seqRange : Option QueryParamRange) :
    Option (List UInt8) :=
  if bufLen = 0 then none
  else do
    let buf ← memcpyChecked bufLen keyAnyke []
    let buf ← populateMax bufLen maxSamples buf
    let buf ← populateAge bufLen timeRangeToStr maxAgeMs buf
    let buf ← populateRange bufLen seqRange buf
    if bufLen ≤ buf.length then none else some buf

end Writer

/-! ### The reader -/

/-- `_z_query_param_t` -/
structure QueryParam where
  key : Option (List UInt8)
  value : Option (List UInt8)
deriving DecidableEq, Repr

/-- The key and the value of a parameter, as `_z_query_params_next` fills them in -/
def queryParam (param : List UInt8) : QueryParam :=
  let (key, kvpair) := splitstrNext [fieldSeparator] (some param)
  if 0 < (key.getD []).length then
    ⟨key, if 0 < (kvpair.getD []).length then kvpair else none⟩
  else ⟨none, none⟩

/-- `_z_query_params_next`: the parameter and what is left of the string -/
def queryParamsNext (str : Option (List UInt8)) : QueryParam × Option (List UInt8) :=
  let (param, rest) := splitstrNext [listSeparator] str
  (param.elim ⟨none, none⟩ queryParam, rest)

/-- `_ze_advanced_cache_query_parse_max` -/
def parseMax (str : List UInt8) : ℕ :=
  if 0 < str.length then (strSeAtoui str).elim maxUnbounded UInt32.toNat else maxUnbounded

/-- A number of a range, or no bound where there is none to read -/
def parseNumber (token : Option (List UInt8)) : ℤ :=
  (strSeAtoui (token.getD [])).elim rangeUnbounded fun value ↦ value.toNat

/-- `_ze_advanced_cache_query_parse_range` -/
def parseRange (str : List UInt8) : CacheRange :=
  if 0 < str.length then
    let (start, ss) := splitstrNext rangeDots (some str)
    let (stop, _) := splitstrNext rangeDots ss
    ⟨parseNumber start, parseNumber stop⟩
  else ⟨rangeUnbounded, rangeUnbounded⟩

section Reader

/- `_z_time_range_from_str` -/
variable {Offset : Type} (timeRangeFromStr : List UInt8 → Option (TimeRange Offset))

/-- `_ze_advanced_cache_query_parse_time` -/
def parseTime (str : List UInt8) : TimeRange Offset :=
  (timeRangeFromStr str).getD ⟨.unbounded, .unbounded⟩

/-- A parameter in the loop of `_ze_advanced_cache_query_parse_parameters` -/
def parseParam (params : CacheQueryParameters Offset) (param : QueryParam) :
    CacheQueryParameters Offset :=
  match param.key with
  | none => params
  | some key =>
    if key = keyRange then { params with range := parseRange (param.value.getD []) }
    else if key = keyMax then { params with max := parseMax (param.value.getD []) }
    else if key = keyTime then
      { params with time := parseTime timeRangeFromStr (param.value.getD []) }
    else params

theorem length_splitstrNext {sep : UInt8} {s rest : List UInt8}
    (h : (splitstrNext [sep] (some s)).2 = some rest) : rest.length < s.length := by
  rw [splitstrNext] at h
  dsimp only at h
  split_ifs at h with hstop
  cases h
  have hle : (strstr s [sep]).getD s.length ≤ s.length := by
    cases hplace : strstr s [sep] with
    | none => exact Nat.le_refl _
    | some place => exact (firstPlace_eq_some_iff.mp hplace).2.1
  rw [length_drop, length_singleton]
  omega

/-- The loop of `_ze_advanced_cache_query_parse_parameters` -/
def parseParametersFrom (params : CacheQueryParameters Offset) (str : List UInt8) :
    CacheQueryParameters Offset :=
  let params := parseParam timeRangeFromStr params (queryParamsNext (some str)).1
  match _h : (queryParamsNext (some str)).2 with
  | none => params
  | some rest => parseParametersFrom params rest
termination_by str.length
decreasing_by exact length_splitstrNext _h

/-- The parameters of a query that has none -/
def CacheQueryParameters.unbounded : CacheQueryParameters Offset :=
  ⟨⟨rangeUnbounded, rangeUnbounded⟩, maxUnbounded, ⟨.unbounded, .unbounded⟩⟩

/-- `_ze_advanced_cache_query_parse_parameters` -/
def parseParameters (rawParams : List UInt8) : CacheQueryParameters Offset :=
  parseParametersFrom timeRangeFromStr .unbounded rawParams

end Reader

/-! ### What is written -/

/-- The text of a range -/
def rangeText (range : QueryParamRange) : List UInt8 :=
  range.start.elim [] (fun number ↦ decimal number.toNat) ++
    (rangeDots ++ range.stop.elim [] fun number ↦ decimal number.toNat)

/-- A parameter with its value -/
def paramText (key value : List UInt8) : List UInt8 := key ++ fieldSeparator :: value

/-- The parameters of a query without an age limit -/
def queryParts (maxSamples : UInt64) (seqRange : Option QueryParamRange) : List (List UInt8) :=
  keyAnyke :: ((if 0 < maxSamples then [paramText keyMax (decimal maxSamples.toNat)] else []) ++
    seqRange.elim [] fun range ↦ [paramText keyRange (rangeText range)])

/-- The text of a query without an age limit -/
def queryText (maxSamples : UInt64) (seqRange : Option QueryParamRange) : List UInt8 :=
  [listSeparator].intercalate (queryParts maxSamples seqRange)

section Printing

/-- An operation writes the whole of a text behind what has been written, or nothing; and it does
write it into a buffer with a byte to spare. -/
structure Prints (bufLen : ℕ) (op : List UInt8 → Option (List UInt8)) (text : List UInt8) :
    Prop where
  fits : ∀ buf, buf.length + text.length < bufLen → op buf = some (buf ++ text)
  whole : ∀ buf out, op buf = some out → out = buf ++ text

variable {bufLen : ℕ} {op next : List UInt8 → Option (List UInt8)} {text more : List UInt8}

theorem Prints.bind (h : Prints bufLen op text) (hnext : Prints bufLen next more) :
    Prints bufLen (fun buf ↦ op buf >>= next) (text ++ more) where
  fits buf hfits := by
    rw [length_append] at hfits
    have hop := h.fits buf (by omega)
    have hlen : (buf ++ text).length + more.length < bufLen := by
      rw [length_append]
      omega
    rw [hop, Option.bind_eq_bind, Option.bind_some, hnext.fits _ hlen, append_assoc]
  whole buf out hout := by
    obtain ⟨mid, hmid, hout⟩ := Option.bind_eq_some_iff.mp hout
    rw [hnext.whole mid out hout, h.whole buf mid hmid, append_assoc]

theorem prints_nothing : Prints bufLen some [] where
  fits buf _ := by rw [append_nil]
  whole buf out hout := by rw [append_nil, Option.some.inj hout]

variable (bufLen)

theorem prints_memcpyChecked (src : List UInt8) : Prints bufLen (memcpyChecked bufLen src) src where
  fits buf hfits := by
    rw [memcpyChecked, if_neg (by omega)]
  whole buf out hout := by
    rw [memcpyChecked] at hout
    split_ifs at hout
    exact (Option.some.inj hout).symm

theorem prints_snprintfChecked (text : List UInt8) :
    Prints bufLen (snprintfChecked bufLen text) text where
  fits buf hfits := by
    rw [snprintfChecked, if_neg (by omega)]
  whole buf out hout := by
    rw [snprintfChecked] at hout
    split_ifs at hout
    exact (Option.some.inj hout).symm

theorem prints_populateKey (key : List UInt8) :
    Prints bufLen (populateKey bufLen key) (listSeparator :: (key ++ [fieldSeparator])) :=
  (prints_memcpyChecked bufLen [listSeparator]).bind
    ((prints_memcpyChecked bufLen key).bind (prints_memcpyChecked bufLen [fieldSeparator]))

theorem prints_populateMax (maxSamples : UInt64) : Prints bufLen (populateMax bufLen maxSamples)
    (if 0 < maxSamples then listSeparator :: paramText keyMax (decimal maxSamples.toNat)
      else []) := by
  unfold populateMax
  split_ifs
  · have h := (prints_populateKey bufLen keyMax).bind
      (prints_snprintfChecked bufLen (decimal maxSamples.toNat))
    rwa [cons_append, append_assoc] at h
  · exact prints_nothing

theorem prints_populateNumber (number : Option UInt32) : Prints bufLen
    (populateNumber bufLen number) (number.elim [] fun number ↦ decimal number.toNat) := by
  cases number with
  | none => exact prints_nothing
  | some number => exact prints_snprintfChecked bufLen _

theorem prints_populateRange (seqRange : Option QueryParamRange) :
    Prints bufLen (populateRange bufLen seqRange)
      (seqRange.elim [] fun range ↦ listSeparator :: paramText keyRange (rangeText range)) := by
  cases seqRange with
  | none => exact prints_nothing
  | some range =>
    have h := (prints_populateKey bufLen keyRange).bind
      ((prints_populateNumber bufLen range.start).bind
        ((prints_memcpyChecked bufLen rangeDots).bind (prints_populateNumber bufLen range.stop)))
    rwa [cons_append, append_assoc] at h

end Printing

theorem queryText_eq (maxSamples : UInt64) (seqRange : Option QueryParamRange) :
    queryText maxSamples seqRange = keyAnyke ++
      ((if 0 < maxSamples then listSeparator :: paramText keyMax (decimal maxSamples.toNat)
        else []) ++
      seqRange.elim [] fun range ↦ listSeparator :: paramText keyRange (rangeText range)) := by
  unfold queryText queryParts
  split_ifs <;> cases seqRange <;> simp

/-- Without an age limit the writer writes the whole text if that fits with its terminator, and
gives up otherwise. -/
theorem populateQueryParams_eq (bufLen : ℕ) (timeRangeToStr : UInt64 → ℕ → Option (List UInt8))
    (maxSamples : UInt64) (seqRange : Option QueryParamRange) :
    populateQueryParams bufLen timeRangeToStr maxSamples 0 seqRange =
      if (queryText maxSamples seqRange).length < bufLen then some (queryText maxSamples seqRange)
      else none := by
  have hage : Prints bufLen (populateAge bufLen timeRangeToStr 0) [] := prints_nothing
  have h := (prints_memcpyChecked bufLen keyAnyke).bind
    ((prints_populateMax bufLen maxSamples).bind (hage.bind (prints_populateRange bufLen seqRange)))
  rw [nil_append, ← queryText_eq] at h
  rw [populateQueryParams]
  by_cases hzero : bufLen = 0
  · rw [if_pos hzero, if_neg (by omega)]
  rw [if_neg hzero]
  change (memcpyChecked bufLen keyAnyke [] >>= fun buf ↦ populateMax bufLen maxSamples buf >>=
    fun buf ↦ populateAge bufLen timeRangeToStr 0 buf >>= fun buf ↦
      populateRange bufLen seqRange buf >>= fun buf ↦
        if bufLen ≤ buf.length then none else some buf) = _
  have hassoc : (memcpyChecked bufLen keyAnyke [] >>= fun buf ↦
      populateMax bufLen maxSamples buf >>= fun buf ↦
        populateAge bufLen timeRangeToStr 0 buf >>= fun buf ↦
          populateRange bufLen seqRange buf >>= fun buf ↦
            if bufLen ≤ buf.length then none else some buf) =
      ((memcpyChecked bufLen keyAnyke [] >>= fun buf ↦ populateMax bufLen maxSamples buf >>=
        fun buf ↦ populateAge bufLen timeRangeToStr 0 buf >>= populateRange bufLen seqRange) >>=
          fun buf ↦ if bufLen ≤ buf.length then none else some buf) := by
    simp only [bind_assoc]
  rw [hassoc]
  by_cases hfits : (queryText maxSamples seqRange).length < bufLen
  · rw [h.fits [] (by simpa using hfits), if_pos hfits, Option.bind_eq_bind, Option.bind_some,
      nil_append, if_neg (Nat.not_le.mpr hfits)]
  · rw [if_neg hfits, Option.bind_eq_bind, Option.bind_eq_none_iff]
    intro out hout
    rw [h.whole [] out hout, nil_append, if_pos (Nat.not_lt.mp hfits)]

/-! ### What is read -/

section Reading

variable {Offset : Type} (timeRangeFromStr : List UInt8 → Option (TimeRange Offset))

variable {parts : List (List UInt8)}

theorem queryParamsNext_joined {part : List UInt8} {parts : List (List UInt8)}
    (hfree : ∀ p ∈ part :: parts, listSeparator ∉ p) :
    queryParamsNext (some ([listSeparator].intercalate (part :: parts))) =
      (queryParam part, joined listSeparator parts) := by
  have h := splitstrNext_joined hfree
  rw [joined] at h
  rw [queryParamsNext, h]
  rfl

/-- The parameters of a string are read one by one. -/
theorem parseParametersFrom_joined (params : CacheQueryParameters Offset) {part : List UInt8}
    (hfree : ∀ p ∈ part :: parts, listSeparator ∉ p) :
    parseParametersFrom timeRangeFromStr params ([listSeparator].intercalate (part :: parts)) =
      (part :: parts).foldl
        (fun params part ↦ parseParam timeRangeFromStr params (queryParam part)) params := by
  induction parts generalizing params part with
  | nil =>
    rw [parseParametersFrom, queryParamsNext_joined hfree]
    rfl
  | cons next parts ih =>
    have hrest : ∀ p ∈ next :: parts, listSeparator ∉ p :=
      fun p hp ↦ hfree p (mem_cons_of_mem _ hp)
    rw [parseParametersFrom, queryParamsNext_joined hfree, foldl_cons, ← ih _ hrest]
    rfl

theorem queryParam_paramText {key value : List UInt8} (hfree : fieldSeparator ∉ key)
    (hkey : key ≠ []) (hvalue : value ≠ []) :
    queryParam (paramText key value) = ⟨some key, some value⟩ := by
  have h := splitstrNext_append hfree [] value
  have hpair : key ++ ([fieldSeparator] ++ value) = paramText key value := rfl
  rw [hpair] at h
  rw [queryParam, h]
  simp only [Option.getD_some]
  rw [if_pos (length_pos_iff.mpr hkey), if_pos (length_pos_iff.mpr hvalue)]

theorem queryParam_keyAnyke : queryParam keyAnyke = ⟨some keyAnyke, none⟩ := by decide

end Reading

theorem not_mem_decimal {c : UInt8} (h : ¬ IsDigit c) (n : ℕ) : c ∉ decimal n :=
  fun hc ↦ h (isDigit_of_mem_decimal hc)

theorem not_mem_number {c : UInt8} (h : ¬ IsDigit c) (number : Option UInt32) :
    c ∉ number.elim [] fun number ↦ decimal number.toNat := by
  cases number with
  | none => exact not_mem_nil
  | some number => exact not_mem_decimal h _

/-- A number of a range that is absent stands for no bound. -/
def requestedBound (number : Option UInt32) : ℤ :=
  number.elim rangeUnbounded fun number ↦ number.toNat

theorem parseNumber_text (number : Option UInt32) :
    parseNumber (some (number.elim [] fun number ↦ decimal number.toNat)) =
      requestedBound number := by
  cases number with
  | none => rfl
  | some number =>
    have hread := strSeAtoui_decimal number.toNat
    rw [if_pos number.toNat_lt, UInt32.ofNat_toNat] at hread
    rw [parseNumber, Option.getD_some, Option.elim_some, hread]
    rfl

theorem rangeText_ne_nil (range : QueryParamRange) : rangeText range ≠ [] := by
  rw [rangeText, Ne, append_eq_nil_iff]
  exact fun h ↦ absurd (append_eq_nil_iff.mp h.2).1 (by decide)

/-- A range is read as it was written. -/
theorem parseRange_rangeText (range : QueryParamRange) :
    parseRange (rangeText range) = ⟨requestedBound range.start, requestedBound range.stop⟩ := by
  have hdot : ¬ IsDigit 0x2E := by decide
  have hstart := splitstrNext_append (not_mem_number hdot range.start) [0x2E]
    (range.stop.elim [] fun number ↦ decimal number.toNat)
  have hstop := splitstrNext_of_not_mem (not_mem_number hdot range.stop) [0x2E]
  rw [parseRange, if_pos (length_pos_iff.mpr (rangeText_ne_nil range))]
  change (let (start, ss) := splitstrNext rangeDots (some (rangeText range))
    let (stop, _) := splitstrNext rangeDots ss
    (⟨parseNumber start, parseNumber stop⟩ : CacheRange)) = _
  have hfirst : splitstrNext rangeDots (some (rangeText range)) = _ := hstart
  have hsecond : splitstrNext rangeDots
    (some (range.stop.elim [] fun number ↦ decimal number.toNat)) = _ := hstop
  rw [hfirst]
  dsimp only
  rw [hsecond]
  dsimp only
  rw [parseNumber_text, parseNumber_text]

/-- A number of samples is read with 32 bits, and is none at all beyond them. -/
theorem parseMax_decimal (n : ℕ) :
    parseMax (decimal n) = if n < 2 ^ 32 then n else maxUnbounded := by
  rw [parseMax, if_pos (length_pos_iff.mpr (decimal_ne_nil n)), strSeAtoui_decimal]
  split_ifs with h
  · rw [Option.elim_some, UInt32.toNat_ofNat']
    exact Nat.mod_eq_of_lt h
  · rfl

variable {maxSamples : UInt64} {seqRange : Option QueryParamRange}

theorem listSeparator_not_mem_queryParts :
    ∀ part ∈ queryParts maxSamples seqRange, listSeparator ∉ part := by
  have hsep : ¬ IsDigit listSeparator := by decide
  have hparam (key value : List UInt8) (hkey : listSeparator ∉ key)
      (hvalue : listSeparator ∉ value) : listSeparator ∉ paramText key value := by
    rw [paramText, mem_append, mem_cons]
    rintro (h | h | h)
    · exact hkey h
    · exact absurd h (by decide)
    · exact hvalue h
  have hmax := hparam keyMax _ (by decide) (not_mem_decimal hsep maxSamples.toNat)
  have hrange (range : QueryParamRange) : listSeparator ∉ paramText keyRange (rangeText range) := by
    refine hparam _ _ (by decide) ?_
    rw [rangeText, mem_append, mem_append]
    rintro (h | h | h)
    · exact not_mem_number hsep _ h
    · exact absurd h (by decide)
    · exact not_mem_number hsep _ h
  intro part hpart
  rw [queryParts, mem_cons, mem_append] at hpart
  rcases hpart with rfl | hpart | hpart
  · decide
  · split_ifs at hpart
    · rw [mem_singleton.mp hpart]
      exact hmax
    · exact absurd hpart not_mem_nil
  · cases seqRange with
    | none => exact absurd hpart not_mem_nil
    | some range =>
      rw [mem_singleton.mp hpart]
      exact hrange range

/-- The number of samples a query asks for; 0 asks for no limit. -/
def requestedMax (maxSamples : UInt64) : ℕ :=
  if 0 < maxSamples then maxSamples.toNat else maxUnbounded

/-- The number of samples that is read -/
def receivedMax (maxSamples : UInt64) : ℕ :=
  if 0 < maxSamples ∧ maxSamples.toNat < 2 ^ 32 then maxSamples.toNat else maxUnbounded

/-- The range a query asks for; an absent one has no bounds. -/
def requestedRange (seqRange : Option QueryParamRange) : CacheRange :=
  seqRange.elim ⟨rangeUnbounded, rangeUnbounded⟩
    fun range ↦ ⟨requestedBound range.start, requestedBound range.stop⟩

/-- What is read of the text of a query -/
theorem parseParameters_queryText {Offset : Type}
    (timeRangeFromStr : List UInt8 → Option (TimeRange Offset)) (maxSamples : UInt64)
    (seqRange : Option QueryParamRange) :
    parseParameters timeRangeFromStr (queryText maxSamples seqRange) =
      ⟨requestedRange seqRange, receivedMax maxSamples, ⟨.unbounded, .unbounded⟩⟩ := by
  have hmax : queryParam (paramText keyMax (decimal maxSamples.toNat)) = _ :=
    queryParam_paramText (by decide) (by decide) (decimal_ne_nil _)
  have hrange (range : QueryParamRange) : queryParam (paramText keyRange (rangeText range)) = _ :=
    queryParam_paramText (by decide) (by decide) (rangeText_ne_nil range)
  have hanyke (params : CacheQueryParameters Offset) :
      parseParam timeRangeFromStr params ⟨some keyAnyke, none⟩ = params := rfl
  have hread (params : CacheQueryParameters Offset) :
      parseParam timeRangeFromStr params ⟨some keyMax, some (decimal maxSamples.toNat)⟩ =
        { params with max := parseMax (decimal maxSamples.toNat) } := rfl
  have hends (params : CacheQueryParameters Offset) (range : QueryParamRange) :
      parseParam timeRangeFromStr params ⟨some keyRange, some (rangeText range)⟩ =
        { params with range := parseRange (rangeText range) } := rfl
  rw [parseParameters, queryText, queryParts, parseParametersFrom_joined _ _
    listSeparator_not_mem_queryParts, foldl_cons, foldl_append, queryParam_keyAnyke, hanyke]
  unfold receivedMax requestedRange
  by_cases hpos : 0 < maxSamples
  · cases seqRange <;>
      simp [hpos, hmax, hrange, hread, hends, parseMax_decimal, parseRange_rangeText,
        CacheQueryParameters.unbounded]
  · cases seqRange <;>
      simp [hpos, hrange, hends, parseRange_rangeText, CacheQueryParameters.unbounded]

theorem hasAnyke_queryText (maxSamples : UInt64) (seqRange : Option QueryParamRange) :
    parametersHasAnyke (queryText maxSamples seqRange) = true := by
  rw [parametersHasAnyke_iff, queryText,
    splitOn_intercalate _ listSeparator_not_mem_queryParts (cons_ne_nil _ _)]
  exact mem_cons_self

/-! ### The round trip -/

section RoundTrip

variable {Offset : Type} (timeRangeToStr : UInt64 → ℕ → Option (List UInt8))
  (timeRangeFromStr : List UInt8 → Option (TimeRange Offset))

/-- What is asked for without an age limit is read on the other side, by the cache and by the
queryable; and the text is written whole or not at all. -/
structure QueryRoundTrips (maxSamples : UInt64) (seqRange : Option QueryParamRange) : Prop where
  whole : ∀ bufLen, populateQueryParams bufLen timeRangeToStr maxSamples 0 seqRange =
    if (queryText maxSamples seqRange).length < bufLen then some (queryText maxSamples seqRange)
    else none
  read : ∀ bufLen text, populateQueryParams bufLen timeRangeToStr maxSamples 0 seqRange = some text →
    parseParameters timeRangeFromStr text =
      ⟨requestedRange seqRange, requestedMax maxSamples, ⟨.unbounded, .unbounded⟩⟩
  anyke : ∀ bufLen text, populateQueryParams bufLen timeRangeToStr maxSamples 0 seqRange =
    some text → parametersHasAnyke text = true

theorem receivedMax_eq_iff (maxSamples : UInt64) :
    receivedMax maxSamples = requestedMax maxSamples ↔
      maxSamples.toNat < 2 ^ 32 ∨ maxSamples.toNat = maxUnbounded := by
  have hpos : 0 < maxSamples ↔ 0 < maxSamples.toNat := UInt64.lt_iff_toNat_lt
  have hmax : maxUnbounded = 2 ^ 64 - 1 := rfl
  rw [receivedMax, requestedMax, hmax]
  simp only [hpos]
  split_ifs <;> omega

theorem read_of_populate {bufLen : ℕ} {text : List UInt8}
    (h : populateQueryParams bufLen timeRangeToStr maxSamples 0 seqRange = some text) :
    text = queryText maxSamples seqRange := by
  rw [populateQueryParams_eq] at h
  split_ifs at h
  exact (Option.some.inj h).symm

/-- A query that asks for more samples than 32 bits can count is read as one without a limit. -/
theorem not_queryRoundTrips (seqRange : Option QueryParamRange)
    (h : ¬ (maxSamples.toNat < 2 ^ 32 ∨ maxSamples.toNat = maxUnbounded)) :
    ¬ QueryRoundTrips timeRangeToStr timeRangeFromStr maxSamples seqRange := by
  intro htrips
  have hread := htrips.read ((queryText maxSamples seqRange).length + 1) _ (by
    rw [populateQueryParams_eq, if_pos (Nat.lt_succ_self _)])
  rw [parseParameters_queryText, CacheQueryParameters.mk.injEq] at hread
  exact h ((receivedMax_eq_iff maxSamples).mp hread.2.1)

/-- The parameters are read as they were asked for if and only if 32 bits can count the samples, or
their number is the one that stands for no limit. -/
theorem queryRoundTrips_iff (maxSamples : UInt64) (seqRange : Option QueryParamRange) :
    QueryRoundTrips timeRangeToStr timeRangeFromStr maxSamples seqRange ↔
      maxSamples.toNat < 2 ^ 32 ∨ maxSamples.toNat = maxUnbounded := by
  constructor
  · exact fun htrips ↦ by_contra fun h ↦ not_queryRoundTrips _ _ seqRange h htrips
  · intro h
    refine ⟨fun bufLen ↦ populateQueryParams_eq bufLen _ _ _, fun bufLen text htext ↦ ?_,
      fun bufLen text htext ↦ ?_⟩
    · rw [read_of_populate _ htext, parseParameters_queryText, (receivedMax_eq_iff maxSamples).mpr h]
    · rw [read_of_populate _ htext]
      exact hasAnyke_queryText _ _

end RoundTrip

/-- 2 ^ 32 samples from number 5 on -/
theorem not_queryRoundTrips_large : ¬ @QueryRoundTrips Unit (fun _ _ ↦ none)
    (fun _ ↦ none) 0x100000000 (some ⟨some 5, none⟩) :=
  not_queryRoundTrips _ _ _ (by decide)

end ZenohPico.Api
