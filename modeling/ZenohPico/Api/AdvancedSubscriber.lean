import Mathlib.Data.Prod.Lex
import Mathlib.Logic.Function.Basic
import ZenohPico.Collections.SeqNumber
import ZenohPico.Collections.SortedMap

/-!
The sources of an advanced subscriber (`src/api/advanced_subscriber.c`).

A source is known by the sequence numbers of its samples, or, when they have none, by their
timestamps. What a source delivers and reports depends on its own state, on the history that the
subscriber waits for, and on the options; the functions below are those of the source, with their
outputs beside the new state.
-/

namespace ZenohPico.Api

open Collections

/-- The order of `_z_uint32_cmp` -/
scoped instance orderUInt32 : LinearOrder UInt32 where
  le_refl := UInt32.le_refl
  le_trans _ _ _ := UInt32.le_trans
  lt_iff_le_not_ge a b := by grind
  le_antisymm _ _ := UInt32.le_antisymm
  le_total := UInt32.le_total
  toDecidableLE := inferInstance
  toDecidableEq := inferInstance
  toDecidableLT := inferInstance

/-- The order of times -/
scoped instance orderUInt64 : LinearOrder UInt64 where
  le_refl := UInt64.le_refl
  le_trans _ _ _ := UInt64.le_trans
  lt_iff_le_not_ge a b := by grind
  le_antisymm _ _ := UInt64.le_antisymm
  le_total := UInt64.le_total
  toDecidableLE := inferInstance
  toDecidableEq := inferInstance
  toDecidableLT := inferInstance

/-- A valid timestamp, with the order of `_z_timestamp_cmp`: the time, then the id -/
abbrev Timestamp (Zid : Type) := UInt64 ×ₗ Zid

/-- How far the allocations that a sample needs succeed: its source is not made, the sample is not
copied, or the entry of the map is not made, when the entry that it replaces is already gone -/
inductive Memory
  | plenty
  | noSource
  | noCopy
  | noEntry
deriving DecidableEq, Repr

/-- What the user sees of a source: a sample in the callback, or a number of missed samples in
the miss listeners -/
inductive Output (α : Type)
  | delivered (sn : UInt32) (sample : α)
  | missed (nb : UInt32)
deriving DecidableEq, Repr

/-- The options that decide what is delivered -/
structure DeliveryOptions where
  retransmission : Bool
  historyDepth : ℕ
deriving DecidableEq, Repr

/-- `_ze_advanced_subscriber_sequenced_state_t` -/
structure SequencedState (α : Type) where
  lastDelivered : Option UInt32
  pendingQueries : UInt64
  pendingSamples : SortedMap UInt32 α

/-- `_ze_advanced_subscriber_timestamped_state_t` -/
structure TimestampedState (Zid α : Type) [LinearOrder Zid] where
  lastDelivered : Option (Timestamp Zid)
  pendingQueries : UInt64
  pendingSamples : SortedMap (Timestamp Zid) α

/-- A counter is lowered by a drop handler, if it is not zero. -/
def lowered (counter : UInt64) : UInt64 := if 0 < counter then counter - 1 else 0

/-- A copy of the sample is put in the map of a source; the flag says whether it is there. -/
def park {κ α : Type} [LinearOrder κ] (memory : Memory) (m : SortedMap κ α) (k : κ) (sample : α) :
    SortedMap κ α × Bool :=
  match memory with
  | .plenty => (m.insert k sample, true)
  | .noEntry => (m.erase k, false)
  | .noSource | .noCopy => (m, false)

/-- The listeners are called for a number of samples that is not zero. -/
def report {α : Type} (diff : ℤ) : List (Output α) :=
  if 0 < diff then [.missed (UInt32.ofNat diff.toNat)] else []

/-! ### Sources with sequence numbers -/

namespace SequencedState

variable {α : Type}

/-- `_ze_advanced_subscriber_sequenced_state_init` -/
def init : SequencedState α := ⟨none, 0, .empty⟩

/-- The loop of `__unsafe_ze_advanced_subscriber_deliver_and_flush`: the parked samples that follow
`last` one by one. A pass takes a sample from the map, so that there are at most as many passes as
samples. -/
def drain : ℕ → SortedMap UInt32 α → UInt32 → UInt32 × SortedMap UInt32 α × List (Output α)
  | 0, m, last => (last, m, [])
  | passes + 1, m, last =>
    match m.get? (seqnumberNext last) with
    | none => (last, m, [])
    | some sample =>
      let r := drain passes (m.erase (seqnumberNext last)) (seqnumberNext last)
      (r.1, r.2.1, .delivered (seqnumberNext last) sample :: r.2.2)

/-- `__unsafe_ze_advanced_subscriber_deliver_and_flush` -/
def deliverAndFlush (state : SequencedState α) (sn : UInt32) (sample : α) :
    SequencedState α × List (Output α) :=
  let r := drain state.pendingSamples.length state.pendingSamples sn
  ({ state with lastDelivered := some r.1, pendingSamples := r.2.1 }, .delivered sn sample :: r.2.2)

/-- The loop of `__unsafe_ze_advanced_subscriber_flush_sequenced_source` -/
def flushEntries : Option UInt32 → List (UInt32 × α) → Option UInt32 × List (Output α)
  | last, [] => (last, [])
  | none, (sn, sample) :: entries =>
    let r := flushEntries (some sn) entries
    (r.1, .delivered sn sample :: r.2)
  | some last, (sn, sample) :: entries =>
    let diff := seqnumberDiff sn (seqnumberNext last)
    if 0 ≤ diff then
      let r := flushEntries (some sn) entries
      (r.1, report diff ++ .delivered sn sample :: r.2)
    -- older, or a duplicate
    else flushEntries (some last) entries

/-- `__unsafe_ze_advanced_subscriber_flush_sequenced_source` -/
def flush (state : SequencedState α) : SequencedState α × List (Output α) :=
  if state.pendingQueries ≠ 0 ∨ state.pendingSamples.isEmpty then (state, [])
  else
    let r := flushEntries state.lastDelivered state.pendingSamples.entries
    ({ state with lastDelivered := r.1, pendingSamples := .empty }, r.2)

/-- The part of `__unsafe_ze_advanced_subscriber_handle_sample` for a sample with source info, in the
state of its source; the flag says whether the sample was handled. -/
def handleSample (opts : DeliveryOptions) (globalPendingQueries : UInt64) (memory : Memory)
    (state : SequencedState α) (sn : UInt32) (sample : α) :
    (SequencedState α × List (Output α)) × Bool :=
  match state.lastDelivered with
  | none =>
    if globalPendingQueries ≠ 0 then
      if opts.historyDepth = 1 then
        (({ state with lastDelivered := some sn }, [.delivered sn sample]), true)
      else
        let parked := park memory state.pendingSamples sn sample
        if parked.2 ∧ 0 < opts.historyDepth ∧ opts.historyDepth ≤ parked.1.length then
          match parked.1.popFirst? with
          | none => (({ state with pendingSamples := parked.1 }, []), true)
          | some (first, rest) =>
            (deliverAndFlush { state with pendingSamples := rest } first.1 first.2, true)
        else (({ state with pendingSamples := parked.1 }, []), parked.2)
    else (deliverAndFlush state sn sample, true)
  | some last =>
    if sn = seqnumberNext last then (deliverAndFlush state sn sample, true)
    else
      let diff := seqnumberDiff sn (seqnumberNext last)
      if 0 < diff then
        if opts.retransmission then
          let parked := park memory state.pendingSamples sn sample
          (({ state with pendingSamples := parked.1 }, []), parked.2)
        else
          (({ state with lastDelivered := some sn }, report diff ++ [.delivered sn sample]), true)
      else ((state, []), true)

/-- The end of `__unsafe_ze_advanced_subscriber_sequenced_query_drop_handler` -/
def queryDropped (globalPendingQueries : UInt64) (state : SequencedState α) :
    SequencedState α × List (Output α) :=
  let state := { state with pendingQueries := lowered state.pendingQueries }
  if globalPendingQueries = 0 then state.flush else (state, [])

end SequencedState

/-! ### Sources with timestamps -/

namespace TimestampedState

variable {Zid α : Type} [LinearOrder Zid]

/-- `_ze_advanced_subscriber_timestamped_state_init` -/
def init : TimestampedState Zid α := ⟨none, 0, .empty⟩

/-- The loop of `__unsafe_ze_advanced_subscriber_flush_timestamped_source` -/
def flushEntries : Option (Timestamp Zid) → List (Timestamp Zid × α) →
    Option (Timestamp Zid) × List (Timestamp Zid × α)
  | last, [] => (last, [])
  | last, (timestamp, sample) :: entries =>
    if last.all (· < timestamp) then
      let r := flushEntries (some timestamp) entries
      (r.1, (timestamp, sample) :: r.2)
    else flushEntries last entries

/-- `__unsafe_ze_advanced_subscriber_flush_timestamped_source` -/
def flush (state : TimestampedState Zid α) : TimestampedState Zid α × List (Timestamp Zid × α) :=
  if state.pendingQueries = 0 ∧ ¬state.pendingSamples.isEmpty then
    let r := flushEntries state.lastDelivered state.pendingSamples.entries
    ({ state with lastDelivered := r.1, pendingSamples := .empty }, r.2)
  else (state, [])

/-- The part of `__unsafe_ze_advanced_subscriber_handle_sample` for a sample with a timestamp only -/
def handleSample (opts : DeliveryOptions) (globalPendingQueries : UInt64) (memory : Memory)
    (state : TimestampedState Zid α) (timestamp : Timestamp Zid) (sample : α) :
    (TimestampedState Zid α × List (Timestamp Zid × α)) × Bool :=
  if state.lastDelivered.all (· < timestamp) then
    if (globalPendingQueries = 0 ∧ state.pendingQueries = 0) ∨ opts.historyDepth = 1 then
      (({ state with lastDelivered := some timestamp }, [(timestamp, sample)]), true)
    else
      let parked := match state.pendingSamples.get? timestamp with
        | some _ => (state.pendingSamples, true)
        | none => park memory state.pendingSamples timestamp sample
      let state := { state with pendingSamples := parked.1 }
      if parked.2 ∧ 0 < opts.historyDepth ∧ opts.historyDepth ≤ parked.1.length then
        (state.flush, true)
      else ((state, []), parked.2)
  else ((state, []), true)

/-- The end of `__unsafe_ze_advanced_subscriber_timestamped_query_drop_handler` -/
def queryDropped (globalPendingQueries : UInt64) (state : TimestampedState Zid α) :
    TimestampedState Zid α × List (Timestamp Zid × α) :=
  let state := { state with pendingQueries := lowered state.pendingQueries }
  if globalPendingQueries = 0 then state.flush else (state, [])

end TimestampedState

end ZenohPico.Api
