import Mathlib.Data.List.Induction
import ZenohPico.Collections.Bytes
import ZenohPico.Foundations.FuelLoop

/-!
Writers of bytes (`src/collections/bytes.c`).

The first write behind the start or an appended value makes a slice of just its bytes, and the
writes behind it fill slices that are twice as long as the one before. After a first write without
bytes there is nothing to take twice: an allocation of no bytes fails, and with it each later write
until something is appended. `builds_iff` says that this is all that can fail.

Memory is granted when at least one byte is asked for.
-/

open List Option

namespace ZenohPico.Collections

open Foundations

/-! ### The source's functions -/

/-- `_z_slice_make`, with what the memory holds. The start is `NULL` where no byte is asked for. -/
def sliceMake (junk : UInt8) (capacity : ℕ) : Option (List UInt8) :=
  if capacity = 0 then none else some (.replicate capacity junk)

/-- `_z_arc_slice_wrap` -/
def ArcSlice.wrap (s : List UInt8) (offset len : ℕ) : Option ArcSlice :=
  if h : offset + len ≤ s.length then some ⟨s, offset, len, h⟩ else none

variable {src : List UInt8}

theorem ArcSlice.fits_fill {s : ArcSlice} (h : s.start + (s.len + src.length) ≤ s.slice.length) :
    s.start + (s.len + src.length) ≤
      (s.slice.take s.len ++ (src ++ s.slice.drop (s.len + src.length))).length := by
  rw [length_append, length_append, length_take, length_drop]
  omega

/-- Bytes are copied into the buffer of a slice, behind its length, and the slice grows over them. -/
def ArcSlice.fill (s : ArcSlice) (src : List UInt8) : Option ArcSlice :=
  if h : s.start + (s.len + src.length) ≤ s.slice.length then
    some ⟨s.slice.take s.len ++ (src ++ s.slice.drop (s.len + src.length)), s.start,
      s.len + src.length, fits_fill h⟩
  else none

/-- The result of a function of the writer -/
inductive WriterResult
  | ok
  | outOfMemory
deriving DecidableEq, Repr

/-- `_z_bytes_writer_t`, with the index of the cached slice -/
structure BytesWriter where
  cache : Option ℕ
  bytes : List ArcSlice

namespace BytesWriter

variable (junk : UInt8) (writer : BytesWriter)

/-- `_z_bytes_writer_empty` -/
def empty : BytesWriter := ⟨none, []⟩

/-- The cached slice -/
def cached : Option ArcSlice := writer.cache.bind (writer.bytes[·]?)

/-- A slice is appended and becomes the cache. -/
def pushCache (s : ArcSlice) : BytesWriter :=
  ⟨some ((writer.bytes ++ [s]).length - 1), writer.bytes ++ [s]⟩

/-- `_z_bytes_writer_ensure_cache` -/
def ensureCache : Option (WriterResult × BytesWriter) :=
  writer.cached.bind fun cached ↦
    if cached.slice.length > cached.len then some (.ok, writer)
    else
      match sliceMake junk (cached.len * 2) with
      | none => some (.outOfMemory, writer)
      | some s => (ArcSlice.wrap s 0 0).map fun cache ↦ (.ok, writer.pushCache cache)

/-- `_z_bytes_writer_init_cache` -/
def initCache (src : List UInt8) : Option (WriterResult × BytesWriter) :=
  (ArcSlice.wrap src 0 src.length).map fun arc ↦ (.ok, writer.pushCache arc)

/-- What a pass of the loop of `_z_bytes_writer_write_all` copies to the cache, with what is left -/
def copyToCache (src : List UInt8) : Option (BytesWriter × List UInt8) :=
  writer.cached.bind fun cached ↦
    let remainingInCache := cached.slice.length - cached.len
    let toCopy := if remainingInCache < src.length then remainingInCache else src.length
    (cached.fill (src.take toCopy)).bind fun filled ↦
      writer.cache.map fun idx ↦
        ({ writer with bytes := writer.bytes.set idx filled }, src.drop toCopy)

/-- A pass of the loop of `_z_bytes_writer_write_all` -/
def writePass (s : BytesWriter × List UInt8) :
    Option (Pass (BytesWriter × List UInt8) (WriterResult × BytesWriter)) :=
  if s.2.length > 0 then
    (s.1.ensureCache junk).bind fun ensured ↦
      match ensured.1 with
      | .outOfMemory => some (.done ensured)
      | .ok => (ensured.2.copyToCache s.2).map .next
  else some (.done (.ok, s.1))

/-- `_z_bytes_writer_write_all`. Each pass of its loop that does not return copies a byte. -/
def writeAll (src : List UInt8) : Option (WriterResult × BytesWriter) :=
  match writer.cache with
  | none => writer.initCache src
  | some _ => runLoop (writePass junk) (src.length + 1) (writer, src)

/-- `_z_bytes_writer_append_z_bytes` -/
def appendZBytes (bytes : List ArcSlice) : WriterResult × BytesWriter :=
  (.ok, ⟨none, writer.bytes ++ bytes⟩)

/-- `_z_bytes_writer_finish` -/
def finish : List ArcSlice := writer.bytes

end BytesWriter

/-! ### Calls of a writer -/

/-- A call of a writer -/
inductive WriterOp
  | write (src : List UInt8)
  | append (bytes : List ArcSlice)

/-- The bytes a call gives to the writer -/
def WriterOp.data : WriterOp → List UInt8
  | .write src => src
  | .append bytes => flatten bytes

namespace BytesWriter

def step (junk : UInt8) (writer : BytesWriter) : WriterOp → Option (WriterResult × BytesWriter)
  | .write src => writer.writeAll junk src
  | .append bytes => some (writer.appendZBytes bytes)

/-- The results of the calls, and the writer after them -/
def run (junk : UInt8) (ops : List WriterOp) : Option (List WriterResult × BytesWriter) :=
  ops.foldl (fun s op ↦ s.bind fun s ↦ (s.2.step junk op).map fun r ↦ (s.1 ++ [r.1], r.2))
    (some ([], empty))

/-- Every call succeeds, and the finished value has the bytes of all of them. -/
def Builds (junk : UInt8) (ops : List WriterOp) : Prop :=
  ∃ results writer, run junk ops = some (results, writer) ∧ (∀ result ∈ results, result = .ok) ∧
    flatten writer.finish = ops.flatMap WriterOp.data

/-- What was written since the start or the last value that was appended -/
def sinceAppend (ops : List WriterOp) : List (List UInt8) :=
  ops.foldl (fun written op ↦
    match op with
    | .write src => written ++ [src]
    | .append _ => []) []

/-- There were writes since then, and none of them had bytes. -/
def Wasted (ops : List WriterOp) : Prop :=
  sinceAppend ops ≠ [] ∧ ∀ src ∈ sinceAppend ops, src = []

/-- No write with bytes comes where there were writes without bytes only. -/
def KeepsCache (ops : List WriterOp) : Prop :=
  ∀ before src after, ops = before ++ .write src :: after → Wasted before → src = []

/-! ### The state of a writer -/

/-- The last slice is the cache. -/
structure Caches (writer : BytesWriter) (before : List ArcSlice) (cached : ArcSlice) : Prop where
  bytes : writer.bytes = before ++ [cached]
  cache : writer.cache = some before.length
  start : cached.start = 0

variable {junk : UInt8} {writer : BytesWriter} {before : List ArcSlice} {s : ArcSlice}

theorem caches_pushCache (writer : BytesWriter) (hstart : s.start = 0) :
    (writer.pushCache s).Caches writer.bytes s where
  bytes := rfl
  cache := by
    rw [pushCache, length_append]
    rfl
  start := hstart

namespace Caches

theorem cached_eq (h : writer.Caches before s) : writer.cached = some s := by
  rw [cached, h.cache, h.bytes, bind_some, List.getElem?_concat_length]

theorem flatten_eq (h : writer.Caches before s) :
    flatten writer.bytes = flatten before ++ s.slice.take s.len := by
  rw [h.bytes, flatten_append, flatten_singleton, ArcSlice.bytes, h.start, drop_zero]

end Caches

theorem fill_eq {src : List UInt8} (hstart : s.start = 0)
    (hroom : s.len + src.length ≤ s.slice.length) :
    ∃ filled, s.fill src = some filled ∧ filled.start = 0 ∧ filled.len = s.len + src.length ∧
      filled.slice.take filled.len = s.slice.take s.len ++ src := by
  have h : s.start + (s.len + src.length) ≤ s.slice.length := by rwa [hstart, Nat.zero_add]
  have htake : (s.slice.take s.len).length = s.len := length_take_of_le (by omega)
  refine ⟨_, dif_pos h, hstart, rfl, ?_⟩
  dsimp only
  rw [← append_assoc, take_left']
  rw [length_append, htake]

/-- With bytes in the cache there is room in it afterwards. -/
theorem Caches.ensureCache (h : writer.Caches before s) (hpos : 0 < s.len) :
    ∃ writer' before' s', writer.ensureCache junk = some (.ok, writer') ∧
      writer'.Caches before' s' ∧ s'.len < s'.slice.length ∧
      flatten writer'.bytes = flatten writer.bytes := by
  by_cases hroom : s.slice.length > s.len
  · refine ⟨writer, before, s, ?_, h, hroom, rfl⟩
    rw [BytesWriter.ensureCache, h.cached_eq, bind_some, if_pos hroom]
  · have hmake : sliceMake junk (s.len * 2) = some (.replicate (s.len * 2) junk) :=
      if_neg (by omega)
    have hfits : 0 + 0 ≤ (List.replicate (s.len * 2) junk).length := Nat.zero_le _
    refine ⟨_, _, ⟨_, 0, 0, hfits⟩, ?_, caches_pushCache writer rfl, ?_, ?_⟩
    · rw [BytesWriter.ensureCache, h.cached_eq, bind_some, if_neg hroom, hmake]
      dsimp only
      rw [ArcSlice.wrap, dif_pos hfits, map_some]
    · dsimp only
      rw [length_replicate]
      omega
    · rw [pushCache, flatten_append, flatten_singleton, ArcSlice.bytes, take_zero, append_nil]

/-- With room in the cache something is copied. -/
theorem Caches.copyToCache (h : writer.Caches before s) (hroom : s.len < s.slice.length)
    (hsrc : src ≠ []) : ∃ writer' s' k, 0 < k ∧
      writer.copyToCache src = some (writer', src.drop k) ∧ writer'.Caches before s' ∧
      0 < s'.len ∧ flatten writer'.bytes = flatten writer.bytes ++ src.take k := by
  have hlen := length_pos_iff.mpr hsrc
  obtain ⟨k, hk⟩ : ∃ k, k = if s.slice.length - s.len < src.length then
    s.slice.length - s.len else src.length := ⟨_, rfl⟩
  have hkpos : 0 < k ∧ k ≤ src.length ∧ s.len + k ≤ s.slice.length := by
    split_ifs at hk <;> omega
  have htake : (src.take k).length = k := length_take_of_le hkpos.2.1
  obtain ⟨filled, hfill, hstart, hgrown, hbytes⟩ :=
    @fill_eq s (src.take k) h.start (by rw [htake]; exact hkpos.2.2)
  have hcaches : Caches { writer with bytes := writer.bytes.set before.length filled }
      before filled := by
    refine ⟨?_, h.cache, hstart⟩
    dsimp only
    rw [h.bytes, set_append_right _ _ (Nat.le_refl _), Nat.sub_self]
    rfl
  refine ⟨_, filled, k, hkpos.1, ?_, hcaches, by omega, ?_⟩
  · rw [BytesWriter.copyToCache, h.cached_eq, bind_some]
    dsimp only
    rw [← hk, hfill, bind_some, h.cache, map_some]
  · rw [hcaches.flatten_eq, hbytes, h.flatten_eq, append_assoc]

/-- The cache has bytes. -/
def Filled (writer : BytesWriter) : Prop := ∃ before s, writer.Caches before s ∧ 0 < s.len

/-- The cache is a slice without bytes and without room. -/
def Barren (writer : BytesWriter) : Prop :=
  ∃ before s, writer.Caches before s ∧ s.len = 0 ∧ s.slice = []

theorem Filled.writePass (h : writer.Filled) {src : List UInt8} (hsrc : src ≠ []) :
    ∃ writer' k, 0 < k ∧
      BytesWriter.writePass junk (writer, src) = some (.next (writer', src.drop k)) ∧
      writer'.Filled ∧ flatten writer'.bytes = flatten writer.bytes ++ src.take k := by
  obtain ⟨before, s, hcaches, hpos⟩ := h
  obtain ⟨ensured, before', s', hensure, hensured, hroom, hflatten⟩ :=
    @Caches.ensureCache junk _ _ _ hcaches hpos
  obtain ⟨writer', filled, k, hk, hcopy, hcaches', hfilled, hbytes⟩ :=
    hensured.copyToCache hroom hsrc
  refine ⟨writer', k, hk, ?_, ⟨_, _, hcaches', hfilled⟩, hbytes.trans (by rw [hflatten])⟩
  rw [BytesWriter.writePass, if_pos (length_pos_iff.mpr hsrc), hensure, bind_some]
  dsimp only
  rw [hcopy, map_some]

theorem Filled.loop (h : writer.Filled) {src : List UInt8} {passes : ℕ}
    (hpasses : src.length < passes) : ∃ writer',
      runLoop (BytesWriter.writePass junk) passes (writer, src) = some (.ok, writer') ∧
      writer'.Filled ∧ flatten writer'.bytes = flatten writer.bytes ++ src := by
  induction passes generalizing writer src with
  | zero => exact absurd hpasses (Nat.not_lt_zero _)
  | succ passes ih =>
    by_cases hsrc : src = []
    · subst hsrc
      exact ⟨writer, rfl, h, (append_nil _).symm⟩
    · obtain ⟨next, k, hk, hpass, hfilled, hbytes⟩ := @Filled.writePass junk _ h _ hsrc
      have hlen := length_pos_iff.mpr hsrc
      obtain ⟨writer', hloop, hfilled', hbytes'⟩ := ih hfilled
        (by rw [length_drop]; omega : (src.drop k).length < passes)
      refine ⟨writer', ?_, hfilled', ?_⟩
      · rw [runLoop, hpass, bind_some]
        exact hloop
      · rw [hbytes', hbytes, append_assoc, take_append_drop]

theorem Filled.writeAll (h : writer.Filled) (src : List UInt8) : ∃ writer',
    writer.writeAll junk src = some (.ok, writer') ∧ writer'.Filled ∧
      flatten writer'.bytes = flatten writer.bytes ++ src := by
  obtain ⟨writer', hloop, hfilled⟩ := @Filled.loop junk _ h src _ (Nat.lt_succ_self _)
  obtain ⟨before, s, hcaches, hpos⟩ := h
  refine ⟨writer', ?_, hfilled⟩
  rw [BytesWriter.writeAll, hcaches.cache]
  exact hloop

/-- Nothing can be written to a barren cache. -/
theorem Barren.writeAll (h : writer.Barren) (src : List UInt8) : writer.writeAll junk src =
      some (if src = [] then .ok else .outOfMemory, writer) := by
  obtain ⟨before, s, hcaches, hlen, hslice⟩ := h
  rw [BytesWriter.writeAll, hcaches.cache]
  dsimp only
  by_cases hsrc : src = []
  · rw [hsrc, if_pos rfl]
    rfl
  · have hensure : writer.ensureCache junk = some (.outOfMemory, writer) := by
      rw [BytesWriter.ensureCache, hcaches.cached_eq, bind_some, hlen, hslice]
      rfl
    rw [if_neg hsrc, runLoop, BytesWriter.writePass,
      if_pos (length_pos_iff.mpr hsrc : src.length > 0), hensure]
    rfl

/-- The first write makes the cache. -/
theorem writeAll_first (hcache : writer.cache = none) (src : List UInt8) : ∃ writer',
    writer.writeAll junk src = some (.ok, writer') ∧
      (if src = [] then writer'.Barren else writer'.Filled) ∧
      flatten writer'.bytes = flatten writer.bytes ++ src := by
  have hfits : 0 + src.length ≤ src.length := Nat.le_of_eq (Nat.zero_add _)
  have hcaches : (writer.pushCache ⟨src, 0, src.length, hfits⟩).Caches writer.bytes
      ⟨src, 0, src.length, hfits⟩ := caches_pushCache writer rfl
  refine ⟨writer.pushCache ⟨src, 0, src.length, hfits⟩, ?_, ?_, ?_⟩
  · rw [BytesWriter.writeAll, hcache]
    dsimp only
    rw [initCache, ArcSlice.wrap, dif_pos hfits, map_some]
  · split_ifs with hsrc
    · exact ⟨_, _, hcaches, length_eq_zero_iff.mpr hsrc, hsrc⟩
    · exact ⟨_, _, hcaches, length_pos_iff.mpr hsrc⟩
  · rw [hcaches.flatten_eq, take_length]

/-! ### Runs -/

section Runs

variable {ops : List WriterOp} {op : WriterOp}

theorem run_concat : run junk (ops ++ [op]) = (run junk ops).bind fun s ↦
    (s.2.step junk op).map fun r ↦ (s.1 ++ [r.1], r.2) := by
  rw [run, foldl_append]
  rfl

theorem sinceAppend_write : sinceAppend (ops ++ [.write src]) = sinceAppend ops ++ [src] := by
  rw [sinceAppend, foldl_append]
  rfl

theorem sinceAppend_append {bytes : List ArcSlice} : sinceAppend (ops ++ [.append bytes]) = [] := by
  rw [sinceAppend, foldl_append]
  rfl

theorem keepsCache_concat : KeepsCache (ops ++ [op]) ↔
    KeepsCache ops ∧ ∀ src, op = .write src → Wasted ops → src = [] := by
  constructor
  · intro h
    refine ⟨fun before src after heq ↦ h before src (after ++ [op]) ?_, fun src heq ↦
      h ops src [] (by rw [heq])⟩
    rw [heq, append_assoc, cons_append]
  · rintro ⟨hops, hop⟩ before src after heq
    rcases eq_nil_or_concat after with rfl | ⟨after', last, rfl⟩
    · obtain ⟨rfl, hlast⟩ := append_inj' heq rfl
      exact hop src (singleton_inj.mp hlast)
    · rw [concat_eq_append, ← cons_append, ← append_assoc] at heq
      exact hops before src after' (append_inj' heq rfl).1

/-- What the writes since the last append say about a writer -/
structure Stands (ops : List WriterOp) (writer : BytesWriter) : Prop where
  fresh : sinceAppend ops = [] → writer.cache = none
  barren : Wasted ops → writer.Barren
  filled : (∃ src ∈ sinceAppend ops, src ≠ []) → writer.Filled
  bytes : flatten writer.bytes = ops.flatMap WriterOp.data

theorem stands_empty : Stands [] empty where
  fresh _ := rfl
  barren h := absurd rfl h.1
  filled := fun ⟨_, hmem, _⟩ ↦ absurd hmem not_mem_nil
  bytes := rfl

theorem Stands.append (h : Stands ops writer) (bytes : List ArcSlice) :
    Stands (ops ++ [.append bytes]) (writer.appendZBytes bytes).2 where
  fresh _ := rfl
  barren hwasted := absurd sinceAppend_append hwasted.1
  filled := by
    rw [sinceAppend_append]
    exact fun ⟨_, hmem, _⟩ ↦ absurd hmem not_mem_nil
  bytes := by
    rw [appendZBytes, flatten_append, h.bytes, flatMap_append]
    exact congrArg (_ ++ ·) (append_nil _).symm

theorem flatMap_write (src : List UInt8) : (ops ++ [WriterOp.write src]).flatMap WriterOp.data =
    ops.flatMap WriterOp.data ++ src := by
  rw [flatMap_append]
  exact congrArg (_ ++ ·) (append_nil _)

/-- A write that comes where there is a cache with bytes, or none, or that has none itself -/
theorem Stands.write (h : Stands ops writer) (hsrc : Wasted ops → src = []) :
    ∃ writer', writer.writeAll junk src = some (.ok, writer') ∧
      Stands (ops ++ [.write src]) writer' := by
  by_cases hfresh : sinceAppend ops = []
  · obtain ⟨writer', hwrite, hcache, hbytes⟩ := @writeAll_first junk _ (h.fresh hfresh) src
    have hsince : sinceAppend (ops ++ [.write src]) = [src] := by
      rw [sinceAppend_write, hfresh, nil_append]
    refine ⟨writer', hwrite, ⟨fun hnil ↦ ?_, fun hwasted ↦ ?_, fun hfilled ↦ ?_, ?_⟩⟩
    · rw [hsince] at hnil
      exact absurd hnil (cons_ne_nil _ _)
    · rw [Wasted, hsince, forall_mem_singleton] at hwasted
      rwa [if_pos hwasted.2] at hcache
    · obtain ⟨src', hmem, hne⟩ := hfilled
      rw [hsince, mem_singleton] at hmem
      rwa [if_neg (hmem ▸ hne)] at hcache
    · rw [hbytes, h.bytes, flatMap_write]
  have hnonempty : sinceAppend ops ++ [src] ≠ [] :=
    append_ne_nil_of_right_ne_nil _ (cons_ne_nil _ _)
  by_cases hwasted : Wasted ops
  · have hnil := hsrc hwasted
    have hbarren := h.barren hwasted
    refine ⟨writer, ?_, ⟨fun hnone ↦ ?_, fun _ ↦ hbarren, fun hfilled ↦ ?_, ?_⟩⟩
    · rw [hbarren.writeAll, if_pos hnil]
    · rw [sinceAppend_write] at hnone
      exact absurd hnone hnonempty
    · obtain ⟨src', hmem, hne⟩ := hfilled
      rw [sinceAppend_write, mem_append, mem_singleton] at hmem
      exact absurd (hmem.elim (hwasted.2 src') fun heq ↦ heq.trans hnil) hne
    · rw [flatMap_write, hnil, append_nil, h.bytes]
  · have hsome : ∃ src ∈ sinceAppend ops, src ≠ [] := by
      by_contra hnone
      refine hwasted ⟨hfresh, fun src hmem ↦ ?_⟩
      by_contra hne
      exact hnone ⟨src, hmem, hne⟩
    obtain ⟨writer', hwrite, hfilled, hbytes⟩ := @Filled.writeAll junk _ (h.filled hsome) src
    refine ⟨writer', hwrite, ⟨fun hnone ↦ ?_, fun hwaste ↦ ?_, fun _ ↦ hfilled, ?_⟩⟩
    · rw [sinceAppend_write] at hnone
      exact absurd hnone hnonempty
    · obtain ⟨src', hmem, hne⟩ := hsome
      rw [Wasted, sinceAppend_write] at hwaste
      exact absurd (hwaste.2 src' (mem_append_left _ hmem)) hne
    · rw [hbytes, h.bytes, flatMap_write]

/-- A run that keeps its cache -/
theorem KeepsCache.stands (h : KeepsCache ops) : ∃ results writer,
    run junk ops = some (results, writer) ∧ (∀ result ∈ results, result = .ok) ∧
      Stands ops writer := by
  induction ops using List.reverseRecOn with
  | nil => exact ⟨[], empty, rfl, fun _ hmem ↦ absurd hmem not_mem_nil, stands_empty⟩
  | append_singleton ops op ih =>
    obtain ⟨hops, hop⟩ := keepsCache_concat.mp h
    obtain ⟨results, writer, hrun, hok, hstands⟩ := ih hops
    have hmore : ∀ result ∈ results ++ [WriterResult.ok], result = .ok := fun result hmem ↦
      (mem_append.mp hmem).elim (hok result) mem_singleton.mp
    have hstep : ∃ writer', writer.step junk op = some (.ok, writer') ∧
        Stands (ops ++ [op]) writer' := by
      cases op with
      | write src => exact hstands.write (hop src rfl)
      | append bytes => exact ⟨_, rfl, hstands.append bytes⟩
    obtain ⟨writer', hwrite, hstands'⟩ := hstep
    refine ⟨results ++ [.ok], writer', ?_, hmore, hstands'⟩
    rw [run_concat, hrun, bind_some, hwrite, map_some]

/-- Where all calls succeed, the cache was kept. -/
theorem keepsCache_of_run {results : List WriterResult} (hrun : run junk ops = some (results, writer))
    (hok : ∀ result ∈ results, result = .ok) : KeepsCache ops := by
  induction ops using List.reverseRecOn generalizing results writer with
  | nil => exact fun before src after heq ↦ absurd heq (append_ne_nil_of_right_ne_nil _
      (cons_ne_nil _ _)).symm
  | append_singleton ops op ih =>
    rw [run_concat] at hrun
    obtain ⟨⟨results', last⟩, hrun', hstep⟩ := bind_eq_some_iff.mp hrun
    obtain ⟨⟨result, next⟩, hcall, heq⟩ := map_eq_some_iff.mp hstep
    obtain ⟨rfl, rfl⟩ := Prod.mk.inj heq
    have hkeeps := ih hrun' fun result' hmem ↦ hok result' (mem_append_left _ hmem)
    refine keepsCache_concat.mpr ⟨hkeeps, ?_⟩
    rintro src rfl hwasted
    obtain ⟨results'', last', hsame, -, hstands⟩ := @KeepsCache.stands junk _ hkeeps
    obtain ⟨-, rfl⟩ := Prod.mk.inj (some.inj (hsame.symm.trans hrun'))
    have hresult := hok result (mem_append_right _ (mem_singleton_self _))
    by_contra hne
    have hbarren := @Barren.writeAll junk _ (hstands.barren hwasted) src
    rw [if_neg hne] at hbarren
    have hfails := congrArg (Option.map Prod.fst) (hbarren.symm.trans hcall)
    rw [map_some, map_some, hresult] at hfails
    cases hfails

end Runs

/-- Every call of a writer succeeds and the bytes are put together, if and only if no write with
bytes comes where since the start, or since something was appended, there were writes without bytes
only. -/
theorem builds_iff (junk : UInt8) (ops : List WriterOp) : Builds junk ops ↔ KeepsCache ops := by
  constructor
  · rintro ⟨results, writer, hrun, hok, -⟩
    exact keepsCache_of_run hrun hok
  · intro h
    obtain ⟨results, writer, hrun, hok, hstands⟩ := @KeepsCache.stands junk _ h
    exact ⟨results, writer, hrun, hok, hstands.bytes⟩

/-- After a write without bytes, one with a byte fails. -/
theorem not_builds_two : ¬ Builds 0 [.write [], .write [7]] := by
  rintro ⟨results, writer, hrun, hok, -⟩
  have hkeeps := keepsCache_of_run hrun hok
  have hwasted : Wasted [.write []] :=
    ⟨cons_ne_nil _ _, fun _ hmem ↦ mem_singleton.mp hmem⟩
  exact cons_ne_nil _ _ (hkeeps [.write []] [7] [] rfl hwasted)

end BytesWriter

end ZenohPico.Collections
