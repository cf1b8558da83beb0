import ZenohPico.Api.AdvancedEvents
import ZenohPico.Collections.Ring
import ZenohPico.Foundations.FuelLoop

/-!
The cache of an advanced publisher (`src/collections/advanced_cache.c`).

The samples are in a ring. A query goes through it from the newest sample backwards, collects those
that match until there are enough, and sends them in the reverse order. A sample whose key does not
intersect that of the query is then refused, unless the query accepts any key.

The clock and the arithmetic of time offsets, which are floating point numbers, are parameters, and
so is the intersection of keys. Memory is granted and samples can be copied. The session is open and
takes what is sent.
-/

open List Option

namespace ZenohPico.Api

open Collections Foundations

/-! ### The source's functions -/

/-- `_z_time_bound_t` -/
inductive TimeBound (Offset : Type)
  | inclusive (nowOffset : Offset)
  | exclusive (nowOffset : Offset)
  | unbounded
deriving DecidableEq, Repr

/-- The bound is not `_Z_TIME_BOUND_UNBOUNDED`. -/
def TimeBound.bounded {Offset : Type} : TimeBound Offset → Bool
  | .inclusive _ | .exclusive _ => true
  | .unbounded => false

/-- `_z_time_range_t` -/
structure TimeRange (Offset : Type) where
  start : TimeBound Offset
  stop : TimeBound Offset
deriving DecidableEq, Repr

/-- `_ze_advanced_cache_range_t` -/
structure CacheRange where
  start : ℤ
  stop : ℤ
deriving DecidableEq, Repr

/-- `_ZE_ADVANCED_CACHE_QUERY_PARAMETERS_RANGE_UNBOUNDED` -/
abbrev rangeUnbounded : ℤ := -1

/-- `_ZE_ADVANCED_CACHE_QUERY_PARAMETERS_MAX_UNBOUNDED` -/
abbrev maxUnbounded : ℕ := 0xFFFFFFFFFFFFFFFF

/-- `_ze_advanced_cache_query_parameters_t` -/
structure CacheQueryParameters (Offset : Type) where
  range : CacheRange
  max : ℕ
  time : TimeRange Offset
deriving DecidableEq, Repr

section Matching

/- `_z_time_range_resolve_offset` -/
variable {Offset : Type} (resolveOffset : UInt64 → Offset → UInt64)

/-- `_z_time_range_contains_at_time` -/
def TimeRange.containsAtTime (range : TimeRange Offset) (timestamp time : UInt64) : Bool :=
  (match range.start with
    | .inclusive nowOffset => !decide (resolveOffset time nowOffset > timestamp)
    | .exclusive nowOffset => !decide (resolveOffset time nowOffset ≥ timestamp)
    | .unbounded => true) &&
  match range.stop with
    | .inclusive nowOffset => !decide (resolveOffset time nowOffset < timestamp)
    | .exclusive nowOffset => !decide (resolveOffset time nowOffset ≤ timestamp)
    | .unbounded => true

/-- `_ze_advanced_cache_range_contains` -/
def CacheRange.contains (range : CacheRange) (sn : UInt32) : Bool :=
  (range.start = rangeUnbounded || range.start ≤ sn.toNat) &&
    (range.stop = rangeUnbounded || sn.toNat ≤ range.stop)

variable {Source Zid α : Type} (params : CacheQueryParameters Offset) (now : UInt64)

/-- The range filter of `_ze_advanced_cache_query_handler` passes a sample over. -/
def rangeSkips (sample : Sample Source Zid α) : Bool :=
  (params.range.start ≠ rangeUnbounded || params.range.stop ≠ rangeUnbounded) &&
    match sample.sourceInfo with
    | none => true
    | some (_, sn) => !params.range.contains sn

/-- The time filter of `_ze_advanced_cache_query_handler` passes a sample over. -/
def timeSkips (sample : Sample Source Zid α) : Bool :=
  (params.time.start.bounded || params.time.stop.bounded) &&
  match sample.timestamp with
  | none => true
  | some timestamp => !params.time.containsAtTime resolveOffset (ofLex timestamp).1 now

/-- The variables of the loop of `_ze_advanced_cache_query_handler` -/
structure Collecting (Source Zid α : Type) where
  iter : RingReverseIterator (Sample Source Zid α)
  outbox : List (Sample Source Zid α)
  max : ℕ

/-- A pass of the loop of `_ze_advanced_cache_query_handler`. The result is `none` where the slot of
a sample is empty. -/
def collectPass (s : Collecting Source Zid α) :
    Pass (Collecting Source Zid α) (Option (List (Sample Source Zid α))) :=
  if s.max = 0 then .done (some s.outbox)
  else
    match s.iter.next with
    | none => .done (some s.outbox)
    | some (none, _) => .done none
    | some (some sample, iter) =>
      if rangeSkips params sample then .next { s with iter }
      else if timeSkips resolveOffset params now sample then .next { s with iter }
      else .next ⟨iter, s.outbox ++ [sample], s.max - 1⟩

end Matching

/-- The part of a sample that is for its receiver, with its key -/
structure Keyed (Key α : Type) where
  keyexpr : Key
  payload : α
deriving DecidableEq, Repr

/-- What `_ze_advanced_cache_query_handler` and `_z_send_reply` read of a query: its key, whether it
accepts replies with any key, and the parameters of the cache -/
structure CacheQuery (Key Offset : Type) where
  key : Key
  anyke : Bool
  params : CacheQueryParameters Offset

/-- The check of `_z_send_reply` -/
def CacheQuery.takes {Key Offset : Type} (intersects : Key → Key → Bool)
    (query : CacheQuery Key Offset) (keyexpr : Key) : Bool :=
  !(!query.anyke && !intersects query.key keyexpr)

/-- The second loop of `_ze_advanced_cache_query_handler`, with `to_send` samples in the outbox: the
samples that `_z_send_reply` does not refuse -/
def sendOutbox {α : Type} (takes : α → Bool) (outbox : List α) : ℕ → List α
  | 0 => []
  | toSend + 1 => outbox[toSend]?.toList.filter takes ++ sendOutbox takes outbox toSend

/-- `_ze_advanced_cache_t` -/
structure AdvancedCache (Source Zid Key α : Type) where
  cache : RingBuffer (Sample Source Zid (Keyed Key α))
  outboxCap : ℕ

namespace AdvancedCache

variable {Source Zid Key α Offset : Type}

/-- `_ze_advanced_cache_init`, with what `_z_ring_init` leaves in the slots -/
def init (val : ℕ → Option (Sample Source Zid (Keyed Key α))) (maxSamples : ℕ) :
    Option (AdvancedCache Source Zid Key α) :=
  if maxSamples = 0 then none else some ⟨.init val maxSamples, maxSamples⟩

/-- `_ze_advanced_cache_add` -/
def add (cache : AdvancedCache Source Zid Key α) (sample : Sample Source Zid (Keyed Key α)) :
    AdvancedCache Source Zid Key α := { cache with cache := (cache.cache.pushForce sample).2 }

/-- The samples `_ze_advanced_cache_query_handler` collects at most -/
def collectMax (cache : AdvancedCache Source Zid Key α) (params : CacheQueryParameters Offset) : ℕ :=
  let cap := cache.cache.ringCapacity
  let max := if params.max ≠ maxUnbounded then params.max else cap
  let max := if max > cap then cap else max
  if max > cache.outboxCap then cache.outboxCap else max

/-- `_ze_advanced_cache_query_handler`, with so many passes at most: the samples it replies with -/
def queryHandler (resolveOffset : UInt64 → Offset → UInt64) (intersects : Key → Key → Bool)
    (cache : AdvancedCache Source Zid Key α) (query : CacheQuery Key Offset) (now : UInt64)
    (passes : ℕ) : Option (Option (List (Sample Source Zid (Keyed Key α)))) :=
  (runLoop (fun s ↦ some (collectPass resolveOffset query.params now s)) passes
    ⟨cache.cache.reverseIteratorMake, [], cache.collectMax query.params⟩).map
      (·.map fun outbox ↦
        sendOutbox (fun sample ↦ query.takes intersects sample.content.keyexpr) outbox outbox.length)

end AdvancedCache

/-! ### The samples a query asks for -/

section Asked

variable {Offset : Type} (resolveOffset : UInt64 → Offset → UInt64)

/-- A time is not before the start of a range. -/
def TimeBound.After (bound : TimeBound Offset) (now time : UInt64) : Prop :=
  match bound with
  | .inclusive nowOffset => resolveOffset now nowOffset ≤ time
  | .exclusive nowOffset => resolveOffset now nowOffset < time
  | .unbounded => True

/-- A time is not behind the end of a range. -/
def TimeBound.Before (bound : TimeBound Offset) (now time : UInt64) : Prop :=
  match bound with
  | .inclusive nowOffset => time ≤ resolveOffset now nowOffset
  | .exclusive nowOffset => time < resolveOffset now nowOffset
  | .unbounded => True

/-- A number is in a range. -/
structure CacheRange.Has (range : CacheRange) (sn : UInt32) : Prop where
  start : range.start ≠ rangeUnbounded → range.start ≤ sn.toNat
  stop : range.stop ≠ rangeUnbounded → sn.toNat ≤ range.stop

variable {Source Zid α : Type}

/-- A sample is in the ranges of a query. -/
structure Matches (params : CacheQueryParameters Offset) (now : UInt64)
    (sample : Sample Source Zid α) : Prop where
  /-- With a range of numbers it has one, in the range. -/
  range : params.range ≠ ⟨rangeUnbounded, rangeUnbounded⟩ →
    ∃ source sn, sample.sourceInfo = some (source, sn) ∧ params.range.Has sn
  /-- With a range of times it has one, in the range. -/
  time : ¬ (params.time.start = .unbounded ∧ params.time.stop = .unbounded) →
    ∃ timestamp, sample.timestamp = some timestamp ∧
      params.time.start.After resolveOffset now (ofLex timestamp).1 ∧
      params.time.stop.Before resolveOffset now (ofLex timestamp).1

/-- The latest samples of a list, as many as a query asks for -/
def CacheQueryParameters.latest (params : CacheQueryParameters Offset)
    (samples : List (Sample Source Zid α)) : List (Sample Source Zid α) :=
  if params.max = maxUnbounded then samples else samples.rtake params.max

end Asked

section Reply

variable {Offset Source Zid α : Type} {resolveOffset : UInt64 → Offset → UInt64}
  {params : CacheQueryParameters Offset} {now : UInt64} {sample : Sample Source Zid α}

theorem contains_iff {range : CacheRange} {sn : UInt32} : range.contains sn ↔ range.Has sn := by
  rw [CacheRange.contains, Bool.and_eq_true, Bool.or_eq_true, Bool.or_eq_true, decide_eq_true_iff,
    decide_eq_true_iff, decide_eq_true_iff, decide_eq_true_iff]
  exact ⟨fun h ↦ ⟨h.1.resolve_left, h.2.resolve_left⟩,
    fun h ↦ ⟨or_iff_not_imp_left.mpr h.start, or_iff_not_imp_left.mpr h.stop⟩⟩

theorem containsAtTime_iff {range : TimeRange Offset} {time : UInt64} :
    range.containsAtTime resolveOffset time now ↔
      range.start.After resolveOffset now time ∧ range.stop.Before resolveOffset now time := by
  rw [TimeRange.containsAtTime, Bool.and_eq_true]
  refine and_congr ?_ ?_
  · cases range.start with
    | inclusive nowOffset => simp [TimeBound.After]
    | exclusive nowOffset => simp [TimeBound.After]
    | unbounded => simp [TimeBound.After]
  · cases range.stop with
    | inclusive nowOffset => simp [TimeBound.Before]
    | exclusive nowOffset => simp [TimeBound.Before]
    | unbounded => simp [TimeBound.Before]

theorem bounded_eq_false_iff {bound : TimeBound Offset} :
    bound.bounded = false ↔ bound = .unbounded := by
  cases bound <;> simp [TimeBound.bounded]

theorem rangeSkips_eq_false_iff : rangeSkips params sample = false ↔
    (params.range ≠ ⟨rangeUnbounded, rangeUnbounded⟩ →
      ∃ source sn, sample.sourceInfo = some (source, sn) ∧ params.range.Has sn) := by
  obtain ⟨⟨start, stop⟩, max, time⟩ := params
  rw [rangeSkips]
  cases hinfo : sample.sourceInfo with
  | none => simp [CacheRange.mk.injEq, imp_iff_not_or]
  | some info =>
    obtain ⟨source, sn⟩ := info
    simp [CacheRange.mk.injEq, ← contains_iff, imp_iff_not_or]

theorem timeSkips_eq_false_iff : timeSkips resolveOffset params now sample = false ↔
    (¬ (params.time.start = .unbounded ∧ params.time.stop = .unbounded) →
      ∃ timestamp, sample.timestamp = some timestamp ∧
        params.time.start.After resolveOffset now (ofLex timestamp).1 ∧
        params.time.stop.Before resolveOffset now (ofLex timestamp).1) := by
  rw [timeSkips]
  cases htime : sample.timestamp with
  | none => simp [bounded_eq_false_iff, imp_iff_not_or]
  | some timestamp => simp [bounded_eq_false_iff, ← containsAtTime_iff, imp_iff_not_or]

/-- The samples that are not passed over -/
theorem matches_iff : Matches resolveOffset params now sample ↔
    rangeSkips params sample = false ∧ timeSkips resolveOffset params now sample = false := by
  rw [rangeSkips_eq_false_iff, timeSkips_eq_false_iff]
  exact ⟨fun h ↦ ⟨h.range, h.time⟩, fun h ↦ ⟨h.1, h.2⟩⟩

instance : Decidable (Matches resolveOffset params now sample) :=
  decidable_of_iff _ matches_iff.symm

/-! ### The replies -/

/-- The iterator gives these samples, the last one first: those that match are collected. -/
theorem collect_computes (xs : List (Sample Source Zid α)) {s : Collecting Source Zid α}
    (h : RingBuffer.Gives s.iter xs) :
    LoopComputes (fun _ s ↦ some (collectPass resolveOffset params now s)) s
      (some (some (s.outbox ++
        ((xs.filter (Matches resolveOffset params now ·)).rtake s.max).reverse))) := by
  induction xs using List.reverseRecOn generalizing s with
  | nil =>
    refine loopComputes_exit fun _ ↦ ?_
    rw [filter_nil, rtake_nil, reverse_nil, append_nil, collectPass, h.nil]
    split_ifs <;> rfl
  | append_singleton xs sample ih =>
    obtain ⟨iter, outbox, max⟩ := s
    obtain ⟨iter', hnext, hgives⟩ := h.concat
    cases max with
    | zero =>
      refine loopComputes_exit fun _ ↦ ?_
      rw [rtake_zero, reverse_nil, append_nil]
      rfl
    | succ max =>
      have hpass : collectPass resolveOffset params now ⟨iter, outbox, max + 1⟩ =
          if rangeSkips params sample then .next ⟨iter', outbox, max + 1⟩
          else if timeSkips resolveOffset params now sample then .next ⟨iter', outbox, max + 1⟩
          else .next ⟨iter', outbox ++ [sample], max⟩ := by
        rw [collectPass, if_neg (Nat.succ_ne_zero max), hnext]
        rfl
      by_cases hmatches : Matches resolveOffset params now sample
      · obtain ⟨hrange, htime⟩ := matches_iff.mp hmatches
        rw [hrange, htime, if_neg Bool.false_ne_true, if_neg Bool.false_ne_true] at hpass
        have hrest := @ih ⟨iter', outbox ++ [sample], max⟩ hgives
        rw [filter_append, filter_singleton, decide_eq_true hmatches, cond_true,
          rtake_concat_succ, reverse_append, reverse_singleton, ← append_assoc]
        exact loopComputes_next (computes_const fun _ ↦ congrArg some hpass) hrest
      · have hskips : rangeSkips params sample = true ∨
            timeSkips resolveOffset params now sample = true := by
          by_contra hnone
          rw [not_or, Bool.not_eq_true, Bool.not_eq_true] at hnone
          exact hmatches (matches_iff.mpr hnone)
        have hskip : collectPass resolveOffset params now ⟨iter, outbox, max + 1⟩ =
            .next ⟨iter', outbox, max + 1⟩ := by
          rw [hpass]
          rcases hskips with hrange | htime
          · rw [hrange, if_pos rfl]
          · rw [htime, if_pos rfl, ite_self]
        have hrest := @ih ⟨iter', outbox, max + 1⟩ hgives
        rw [filter_append, filter_singleton, decide_eq_false hmatches, cond_false, append_nil]
        exact loopComputes_next (computes_const fun _ ↦ congrArg some hskip) hrest

end Reply

/-- What is sent is the outbox in the reverse order, without what is refused. -/
theorem sendOutbox_eq {α : Type} (takes : α → Bool) (outbox : List α) {toSend : ℕ}
    (h : toSend ≤ outbox.length) :
    sendOutbox takes outbox toSend = (outbox.take toSend).reverse.filter takes := by
  induction toSend with
  | zero => rfl
  | succ toSend ih =>
    rw [sendOutbox, ih (Nat.le_of_succ_le h), take_add_one, reverse_append, filter_append]
    rw [List.getElem?_eq_getElem h, toList_some, reverse_singleton]

theorem sendOutbox_length {α : Type} (takes : α → Bool) (outbox : List α) :
    sendOutbox takes outbox outbox.length = outbox.reverse.filter takes := by
  rw [sendOutbox_eq takes outbox (Nat.le_refl _), take_length]

namespace AdvancedCache

variable {Source Zid Key α Offset : Type} {resolveOffset : UInt64 → Offset → UInt64}
  {intersects : Key → Key → Bool} {maxSamples : ℕ} {cache : AdvancedCache Source Zid Key α}
  {val : ℕ → Option (Sample Source Zid (Keyed Key α))}

theorem outboxCap_foldl_add (published : List (Sample Source Zid (Keyed Key α))) :
    (published.foldl add cache).outboxCap = cache.outboxCap := by
  induction published generalizing cache with
  | nil => rfl
  | cons sample published ih => exact ih

theorem cache_foldl_add (published : List (Sample Source Zid (Keyed Key α))) :
    (published.foldl add cache).cache =
      published.foldl (fun ring sample ↦ (ring.pushForce sample).2) cache.cache := by
  induction published generalizing cache with
  | nil => rfl
  | cons sample published ih => exact ih

/-- With room for all samples, all of them are the latest ones. -/
theorem rtake_of_length_le {α : Type} {samples : List α} {n : ℕ} (h : samples.length ≤ n) :
    samples.rtake n = samples := by
  rw [List.rtake, Nat.sub_eq_zero_of_le h, drop_zero]

/-- The limits on what is collected make no difference to samples that are no more than the cache
can hold. -/
theorem rtake_collectMax {samples : List (Sample Source Zid (Keyed Key α))}
    (params : CacheQueryParameters Offset) (hcapacity : cache.cache.ringCapacity = maxSamples)
    (houtbox : cache.outboxCap = maxSamples) (hlen : samples.length ≤ maxSamples) :
    samples.rtake (cache.collectMax params) = params.latest samples := by
  have hmax : cache.collectMax params =
      min (if params.max ≠ maxUnbounded then params.max else maxSamples) maxSamples := by
    rw [collectMax, hcapacity, houtbox]
    split_ifs <;> omega
  rw [hmax, CacheQueryParameters.latest]
  by_cases hunbounded : params.max = maxUnbounded
  · rw [if_pos hunbounded, if_neg (not_not_intro hunbounded), Nat.min_self, rtake_of_length_le hlen]
  · rw [if_neg hunbounded, if_pos hunbounded]
    rcases Nat.le_total params.max maxSamples with hle | hle
    · rw [Nat.min_eq_left hle]
    · rw [Nat.min_eq_right hle, rtake_of_length_le hlen, rtake_of_length_le (hlen.trans hle)]

/-- The latest of the cached samples that match a query -/
def asked (resolveOffset : UInt64 → Offset → UInt64) (maxSamples : ℕ)
    (published : List (Sample Source Zid (Keyed Key α))) (params : CacheQueryParameters Offset)
    (now : UInt64) : List (Sample Source Zid (Keyed Key α)) :=
  params.latest ((published.rtake maxSamples).filter (Matches resolveOffset params now ·))

/-- The samples of a reply are, of the latest of those that match among the latest ones published,
those that the query takes, in the order of their publication. -/
theorem queryHandler_settles (hinit : init val maxSamples = some cache)
    (published : List (Sample Source Zid (Keyed Key α))) (query : CacheQuery Key Offset)
    (now : UInt64) :
    Settles (queryHandler resolveOffset intersects (published.foldl add cache) query now)
      (some ((asked resolveOffset maxSamples published query.params now).filter fun sample ↦
        query.anyke || intersects query.key sample.content.keyexpr)) := by
  have hcache : cache = ⟨.init val maxSamples, maxSamples⟩ := by
    unfold init at hinit
    split_ifs at hinit
    exact (some.inj hinit).symm
  obtain ⟨hholds, hcapacity⟩ := RingBuffer.foldl_pushForce_holds val maxSamples published
  have hring : (published.foldl add cache).cache.Holds (published.rtake maxSamples) := by
    rwa [cache_foldl_add, hcache]
  have hroom : (published.foldl add cache).cache.ringCapacity = maxSamples := by
    rw [RingBuffer.ringCapacity, cache_foldl_add, hcache, hcapacity, Nat.add_sub_cancel]
  have houtbox : (published.foldl add cache).outboxCap = maxSamples := by
    rw [outboxCap_foldl_add, hcache]
  have hlen : ((published.rtake maxSamples).filter
      (Matches resolveOffset query.params now ·)).length ≤ maxSamples := by
    refine (length_filter_le _ _).trans ?_
    have hfits := Nat.le_sub_one_of_lt hring.fits
    rwa [← RingBuffer.ringCapacity, hroom] at hfits
  have hcollect : LoopComputes (fun _ s ↦ some (collectPass resolveOffset query.params now s))
      ⟨(published.foldl add cache).cache.reverseIteratorMake, [],
        (published.foldl add cache).collectMax query.params⟩
      (some (some (((published.rtake maxSamples).filter
        (Matches resolveOffset query.params now ·)).rtake
          ((published.foldl add cache).collectMax query.params)).reverse)) :=
    collect_computes _ hring.gives
  rw [rtake_collectMax query.params hroom houtbox hlen] at hcollect
  have htakes : (fun sample : Sample Source Zid (Keyed Key α) ↦
      query.takes intersects sample.content.keyexpr) =
        fun sample ↦ query.anyke || intersects query.key sample.content.keyexpr := by
    funext sample
    rw [CacheQuery.takes, Bool.not_and, Bool.not_not, Bool.not_not]
  have hreply := (hcollect.computes.map (·.map fun outbox ↦
    sendOutbox (fun sample ↦ query.takes intersects sample.content.keyexpr) outbox
      outbox.length)).settles
  beta_reduce at hreply
  rw [map_some, sendOutbox_length, reverse_reverse] at hreply
  rw [← htakes]
  exact hreply

/-- A sample with a number of one source and the key 1, and no timestamp -/
def numbered (sn : UInt32) : Sample ℕ ℕ (Keyed ℕ UInt32) := ⟨some (7, sn), none, ⟨1, sn⟩⟩

/-- A query for the numbers from 2 to 4, under a key -/
def numbersQuery (key : ℕ) (anyke : Bool) : CacheQuery ℕ UInt64 :=
  ⟨key, anyke, ⟨⟨2, 4⟩, 5, ⟨.unbounded, .unbounded⟩⟩⟩

/-- A query on the key of the samples, one that accepts any key, and one on another key -/
theorem queryHandler_settles_three : ∃ cache : AdvancedCache ℕ ℕ ℕ UInt32,
    init (fun _ ↦ none) 3 = some cache ∧
    Settles (queryHandler (· + ·) (· == ·) (([1, 2, 3, 4, 5].map numbered).foldl add cache)
      (numbersQuery 1 false) 0) (some [numbered 3, numbered 4]) ∧
    Settles (queryHandler (· + ·) (· == ·) (([1, 2, 3, 4, 5].map numbered).foldl add cache)
      (numbersQuery 2 true) 0) (some [numbered 3, numbered 4]) ∧
    Settles (queryHandler (· + ·) (· == ·) (([1, 2, 3, 4, 5].map numbered).foldl add cache)
      (numbersQuery 2 false) 0) (some []) := by
  have hinit : (init (fun _ ↦ none) 3 : Option (AdvancedCache ℕ ℕ ℕ UInt32)) =
      some ⟨.init (fun _ ↦ none) 3, 3⟩ := rfl
  exact ⟨_, hinit, queryHandler_settles hinit _ _ _, queryHandler_settles hinit _ _ _,
    queryHandler_settles hinit _ _ _⟩

/-- A query on another key than that of the samples gets no reply. -/
theorem queryHandler_refuses_key : ¬ ∀ (intersects : ℕ → ℕ → Bool)
    (cache : AdvancedCache ℕ ℕ ℕ UInt32), init (fun _ ↦ none) 3 = some cache →
    ∀ (published : List (Sample ℕ ℕ (Keyed ℕ UInt32))) (query : CacheQuery ℕ UInt64) (now : UInt64),
      Settles (queryHandler (· + ·) intersects (published.foldl add cache) query now)
        (some (asked (· + ·) 3 published query.params now)) := by
  intro h
  have hall := h (· == ·) _ rfl [numbered 3] (numbersQuery 2 false) 0
  obtain ⟨n, hn⟩ := hall
  have hnone : queryHandler (· + ·) (· == ·)
      (add ⟨.init (fun _ ↦ none) 3, 3⟩ (numbered 3)) (numbersQuery 2 false) 0 (n + 3) =
        some (some []) := rfl
  have hlate := hn (n + 3) (Nat.le_add_right n 3)
  have hasked := some.inj (some.inj (hnone.symm.trans hlate))
  exact absurd (congrArg List.length hasked) (by decide)

end AdvancedCache

end ZenohPico.Api
