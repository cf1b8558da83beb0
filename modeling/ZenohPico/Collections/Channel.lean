import ZenohPico.Collections.RingQueue
import ZenohPico.Foundations.Monitor

/-!
Channels between threads (`src/collections/fifo_mt.c`, `src/collections/ring_mt.c`).

Any number of threads push, pull, try to pull and close, in any order. What a call does between
taking the mutex and giving it back, or going to sleep, is one step, as nothing else touches the
ring in between. `_is_closed` is read once more by a pull that has given the mutex back, and that
is a step of its own.

The log of a channel lists what happened under its mutex. Each event of it stands to the events
before as `Legal` says, and the elements that have left are the first of those that have entered.
What the calls of a thread have answered, and what its pull under way will answer, is its account.
The log is an interleaving of the accounts: a call has done what its answer says, once, and nothing
else has happened but that a push made room.
-/

open List Option

namespace ZenohPico.Collections

open Foundations

variable {α : Type}

/-! ### The log -/

/-- What happens to a channel under its mutex -/
inductive ChannelEvent (α : Type)
  /-- A push puts an element into the channel. -/
  | entered (e : α)
  /-- A push makes room for its element. -/
  | discarded (e : α)
  /-- A pull takes an element. -/
  | handed (e : α)
  /-- A pull finds the channel empty and closed. -/
  | drained
  /-- A pull that does not wait finds the channel empty. -/
  | missed
  | closed
deriving DecidableEq

namespace ChannelEvent

/-- The element that an event puts into the channel -/
def entering : ChannelEvent α → Option α
  | entered e => some e
  | _ => none

/-- The element that an event takes from the channel -/
def leaving : ChannelEvent α → Option α
  | discarded e => some e
  | handed e => some e
  | _ => none

/-- The event, where it is what a call answers -/
def told : ChannelEvent α → Option (ChannelEvent α)
  | discarded _ => none
  | event => some event

/-- The events that may come after a log. `waits` tells a channel where a push waits for room from
one where it makes room. -/
def Legal (capacity : ℕ) (waits : Bool) (log : List (ChannelEvent α)) : ChannelEvent α → Prop
  | entered _ =>
    (log.filterMap entering).length < (log.filterMap leaving).length + capacity
  | discarded _ => waits = false ∧
    (log.filterMap entering).length = (log.filterMap leaving).length + capacity
  | handed _ => True
  | drained => log.filterMap entering = log.filterMap leaving ∧ closed ∈ log
  | missed => log.filterMap entering = log.filterMap leaving
  | closed => True

end ChannelEvent

/-! ### The source's functions -/

/-- The two condition variables -/
inductive ChannelCondvar
  | notFull
  | notEmpty
deriving DecidableEq

/-- What a call gives back -/
inductive ChannelAnswer (α : Type)
  | ok
  | element (e : α)
  | channelClosed
  | channelNoData
  /-- `element_move` was called with a null pointer. -/
  | nullMoved
deriving DecidableEq

/-- What a thread may ask for -/
inductive ChannelRequest (α : Type)
  | push (e : α)
  | pull
  | tryPull
  | close
deriving DecidableEq

/-- What an answer says to have happened -/
def ChannelRequest.told : ChannelRequest α → ChannelAnswer α → Option (ChannelEvent α)
  | push e, .ok => some (.entered e)
  | pull, .element e => some (.handed e)
  | pull, .channelClosed => some .drained
  | tryPull, .element e => some (.handed e)
  | tryPull, .channelNoData => some .missed
  | tryPull, .channelClosed => some .missed
  | close, .ok => some .closed
  | _, _ => none

/-- Where a thread is: in no call, in a call, or in a pull that has given the mutex back with what
it has taken -/
inductive ChannelCall (α : Type)
  | idle (last : Option (ChannelAnswer α))
  | push (e : α)
  | pull
  | pulled (src : Option α)
  | tryPull
  | tryPulled (src : Option α)
  | close
deriving DecidableEq

namespace ChannelCall

/-- What the call was made for -/
def request : ChannelCall α → Option (ChannelRequest α)
  | idle _ => none
  | push e => some (.push e)
  | pull => some .pull
  | pulled _ => some .pull
  | tryPull => some .tryPull
  | tryPulled _ => some .tryPull
  | close => some .close

/-- What a pull that has given the mutex back has taken -/
def taken : ChannelCall α → List (Option (ChannelEvent α))
  | pulled (some src) => [some (.handed src)]
  | pulled none => [some .drained]
  | tryPulled (some src) => [some (.handed src)]
  | tryPulled none => [some .missed]
  | _ => []

end ChannelCall

/-- A thread, with the answers it has had -/
structure ChannelThread (α : Type) where
  call : ChannelCall α
  answers : List (ChannelRequest α × ChannelAnswer α)

namespace ChannelThread

variable (thread : ChannelThread α)

/-- The thread goes on to a call, or to the end of one. -/
def goes (call : ChannelCall α) : ChannelThread α :=
  match thread.call.request, call with
  | some request, .idle (some answer) => ⟨call, thread.answers ++ [(request, answer)]⟩
  | _, _ => ⟨call, thread.answers⟩

/-- What the answers of a thread, and its pull under way, say to have happened. There is `none` for
an answer that a request cannot have. -/
def account : List (Option (ChannelEvent α)) :=
  thread.answers.map (fun answered ↦ answered.1.told answered.2) ++ thread.call.taken

end ChannelThread

/-- `_z_fifo_mt_t` and `_z_ring_mt_t`, with the log -/
structure Channel (α : Type) where
  ring : RingBuffer α
  isClosed : Bool
  log : List (ChannelEvent α)

/-- A step of a call -/
abbrev ChannelMove (α : Type) := Move ChannelCondvar (Channel α) (ChannelCall α)

namespace Channel

variable (ch : Channel α)

/-- `_z_fifo_mt_init`, `_z_ring_mt_init` -/
def init (val : ℕ → Option α) (capacity : ℕ) : Channel α := ⟨.init val capacity, false, []⟩

/-- A write to the log -/
def note (event : ChannelEvent α) : Channel α := { ch with log := ch.log ++ [event] }

/-- A pass of the loop of `_z_fifo_mt_push` -/
def fifoMtPush (elem : α) : ChannelMove α :=
  match ch.ring.push elem with
  | (some elem, _) => ⟨ch, .waiting .notFull (.push elem), .none⟩
  | (none, ring) =>
    ⟨{ ch with ring }.note (.entered elem), .outside (.idle (some .ok)), .one .notEmpty⟩

/-- A pass of the loop of a pull, with its signal that there is room -/
def pullPass (room : Signal ChannelCondvar) : ChannelMove α :=
  match ch.ring.pull with
  | (some src, ring) => ⟨{ ch with ring }.note (.handed src), .outside (.pulled (some src)), room⟩
  | (none, _) =>
    if ch.isClosed then ⟨ch.note .drained, .outside (.pulled none), .none⟩
    else ⟨ch, .waiting .notEmpty .pull, .none⟩

/-- A pull that does not wait, until it gives the mutex back -/
def tryPullPass (room : Signal ChannelCondvar) : ChannelMove α :=
  match ch.ring.pull with
  | (some src, ring) =>
    ⟨{ ch with ring }.note (.handed src), .outside (.tryPulled (some src)), room⟩
  | (none, _) => ⟨ch.note .missed, .outside (.tryPulled none), .none⟩

/-- `_z_fifo_mt_pull` -/
def fifoMtPull : ChannelMove α := ch.pullPass (.one .notFull)

/-- `_z_fifo_mt_try_pull` -/
def fifoMtTryPull : ChannelMove α := ch.tryPullPass (.one .notFull)

/-- `_z_fifo_mt_close`, `_z_ring_mt_close` -/
def close : ChannelMove α :=
  ⟨{ ch with isClosed := true }.note .closed, .outside (.idle (some .ok)), .all .notEmpty⟩

/-- `_z_ring_mt_push`. The element that has to leave is freed. -/
def ringMtPush (elem : α) : ChannelMove α :=
  match ch.ring.pushForce elem with
  | (none, ring) =>
    ⟨{ ch with ring }.note (.entered elem), .outside (.idle (some .ok)), .one .notEmpty⟩
  | (some ret, ring) =>
    ⟨({ ch with ring }.note (.discarded ret)).note (.entered elem), .outside (.idle (some .ok)),
      .one .notEmpty⟩

/-- `_z_ring_mt_pull` -/
def ringMtPull : ChannelMove α := ch.pullPass .none

/-- `_z_ring_mt_try_pull` -/
def ringMtTryPull : ChannelMove α := ch.tryPullPass .none

/-- The end of a pull, with what it does where there is no element and the channel is open -/
def pullEnd (otherwise : ChannelAnswer α) (src : Option α) : ChannelAnswer α :=
  match src with
  | some src => .element src
  | none => if ch.isClosed then .channelClosed else otherwise

/-- The end of `_z_fifo_mt_pull` -/
def fifoMtPullEnd (src : Option α) : ChannelAnswer α := ch.pullEnd .nullMoved src

/-- The end of `_z_ring_mt_pull` -/
def ringMtPullEnd (src : Option α) : ChannelAnswer α := ch.pullEnd .ok src

/-- The end of `_z_fifo_mt_try_pull` and of `_z_ring_mt_try_pull` -/
def tryPullEnd (src : Option α) : ChannelAnswer α := ch.pullEnd .channelNoData src

end Channel

/-- The calls of a thread that is in none -/
inductive ChannelCall.Begins : ChannelCall α → ChannelCall α → Prop
  | push (last : Option (ChannelAnswer α)) (e : α) : Begins (.idle last) (.push e)
  | pull (last : Option (ChannelAnswer α)) : Begins (.idle last) .pull
  | tryPull (last : Option (ChannelAnswer α)) : Begins (.idle last) .tryPull
  | close (last : Option (ChannelAnswer α)) : Begins (.idle last) .close

namespace Channel

/-- The functions of one kind of channel -/
structure Kind (α : Type) where
  push : Channel α → α → ChannelMove α
  pull : Channel α → ChannelMove α
  pullEnd : Channel α → Option α → ChannelAnswer α
  tryPull : Channel α → ChannelMove α

/-- `_z_fifo_mt_t` -/
def fifoMt : Kind α := ⟨fifoMtPush, fifoMtPull, fifoMtPullEnd, fifoMtTryPull⟩

/-- `_z_ring_mt_t` -/
def ringMt : Kind α := ⟨ringMtPush, ringMtPull, ringMtPullEnd, ringMtTryPull⟩

/-- The steps of the calls with the mutex -/
inductive Kind.Inside (kind : Kind α) : ChannelCall α → Channel α → ChannelMove α → Prop
  | push (ch : Channel α) (e : α) : kind.Inside (.push e) ch (kind.push ch e)
  | pull (ch : Channel α) : kind.Inside .pull ch (kind.pull ch)
  | tryPull (ch : Channel α) : kind.Inside .tryPull ch (kind.tryPull ch)
  | close (ch : Channel α) : kind.Inside .close ch ch.close

/-- The ends of the pulls -/
inductive Kind.Ends (kind : Kind α) : ChannelCall α → Channel α → Channel α → ChannelCall α → Prop
  | pulled (ch : Channel α) (src : Option α) :
    kind.Ends (.pulled src) ch ch (.idle (some (kind.pullEnd ch src)))
  | tryPulled (ch : Channel α) (src : Option α) :
    kind.Ends (.tryPulled src) ch ch (.idle (some (ch.tryPullEnd src)))

variable {call : ChannelCall α} {ch' : Channel α}

theorem Kind.Ends.data_eq {kind : Kind α} {before : ChannelCall α} {ch : Channel α}
    (h : kind.Ends before ch ch' call) : ch' = ch := by
  cases h <;> rfl

/-- The threads of a channel -/
def Kind.threads (kind : Kind α) : MonitorProgram ChannelCondvar (Channel α) (ChannelThread α) where
  call thread thread' := ∃ call, thread.call.Begins call ∧ thread' = thread.goes call
  atomic thread ch ch' thread' := ∃ call, kind.Ends thread.call ch ch' call ∧
    thread' = thread.goes call
  inside thread ch move := ∃ step, kind.Inside thread.call ch step ∧ move = step.map thread.goes
  expire _ _ := False

/-- No thread is in a call yet. -/
def start {τ : Type} (val : ℕ → Option α) (capacity : ℕ) :
    Monitor τ ChannelCondvar (Channel α) (ChannelThread α) where
  data := init val capacity
  owner := none
  place _ := .outside ⟨.idle none, []⟩

theorem start_rests {τ : Type} (val : ℕ → Option α) (capacity : ℕ) :
    (start val capacity : Monitor τ _ _ _).Rests :=
  ⟨rfl, fun _ ↦ ⟨_, rfl⟩⟩

/-! ### What a step does -/

/-- The ring keeps a queue, whose elements are those that have entered and not left. -/
structure Kept {capacity : ℕ} (waits : Bool) (ch : Channel α) (q : BoundedQueue α capacity) :
    Prop where
  keeps : ch.ring.Keeps q
  flow : ch.log.filterMap ChannelEvent.entering =
    ch.log.filterMap ChannelEvent.leaving ++ q.elements
  closed_iff : ch.isClosed = true ↔ .closed ∈ ch.log
  legal : LegalLog (ChannelEvent.Legal capacity waits) ch.log

variable {move : ChannelMove α}

section Kept

variable {capacity : ℕ} {waits : Bool} {ch : Channel α} {q : BoundedQueue α capacity}

theorem kept_init (val : ℕ → Option α) (capacity : ℕ) (waits : Bool) :
    (init val capacity).Kept waits (.empty capacity) where
  keeps := RingBuffer.keeps_init val capacity
  flow := rfl
  closed_iff := iff_of_false Bool.false_ne_true not_mem_nil
  legal := legalLog_nil

theorem Kept.length_eq (h : ch.Kept waits q) : (ch.log.filterMap ChannelEvent.entering).length =
      (ch.log.filterMap ChannelEvent.leaving).length + q.elements.length := by
  rw [h.flow, length_append]

theorem Kept.len_eq (h : ch.Kept waits q) : ch.ring.len = q.elements.length := h.keeps.holds.len_eq

theorem filterMap_concat {β : Type} (f : ChannelEvent α → Option β) (log : List (ChannelEvent α))
    (event : ChannelEvent α) :
    (log ++ [event]).filterMap f = log.filterMap f ++ (f event).toList := by
  rw [filterMap_append]
  cases hf : f event with
  | none => rw [filterMap_cons_none hf, filterMap_nil, toList_none]
  | some b => rw [filterMap_cons_some hf, filterMap_nil, toList_some]

/-- An event under which the queue changes as the ring does -/
theorem Kept.note (h : ch.Kept waits q) {ring : RingBuffer α} {q' : BoundedQueue α capacity}
    {event : ChannelEvent α} (hring : ring.Keeps q')
    (hflow : q.elements ++ event.entering.toList = event.leaving.toList ++ q'.elements)
    (hlegal : event.Legal capacity waits ch.log) (hopen : event ≠ .closed) :
    ({ ch with ring }.note event).Kept waits q' where
  keeps := hring
  flow := by
    change (ch.log ++ [event]).filterMap _ = (ch.log ++ [event]).filterMap _ ++ _
    rw [filterMap_concat, filterMap_concat, h.flow, append_assoc, append_assoc, hflow]
  closed_iff := by
    change ch.isClosed = true ↔ _ ∈ ch.log ++ [event]
    rw [h.closed_iff, mem_append, mem_singleton]
    exact (or_iff_left hopen.symm).symm
  legal := h.legal.concat hlegal

theorem Kept.close (h : ch.Kept waits q) : ch.close.data.Kept waits q where
  keeps := h.keeps
  flow := by
    change (ch.log ++ [ChannelEvent.closed]).filterMap _ = (ch.log ++ [_]).filterMap _ ++ _
    rw [filterMap_concat, filterMap_concat, h.flow]
    exact (append_nil _).trans (congrArg (· ++ q.elements) (append_nil _).symm)
  closed_iff := iff_of_true rfl (mem_append_right _ (mem_singleton_self _))
  legal := h.legal.concat trivial

/-- All that a step of a call can do. `waits` tells a channel whose pushes wait for room. -/
inductive Effect (waits : Bool) (ch : Channel α) (q : BoundedQueue α capacity) :
    ChannelCall α → ChannelMove α → Prop
  | entered {e : α} {data : Channel α} {q' : BoundedQueue α capacity} (hkept : data.Kept waits q')
    (hlog : data.log.filterMap ChannelEvent.told =
      ch.log.filterMap ChannelEvent.told ++ [.entered e])
    (hopen : data.isClosed = ch.isClosed) (hle : q'.elements.length ≤ q.elements.length + 1)
    (hwaits : waits = true → q'.elements.length = q.elements.length + 1) :
    Effect waits ch q (.push e) ⟨data, .outside (.idle (some .ok)), .one .notEmpty⟩
  | full {e : α} (hwaits : waits = true) (hfull : q.elements.length = capacity) :
    Effect waits ch q (.push e) ⟨ch, .waiting .notFull (.push e), .none⟩
  | handed {call after : ChannelCall α} {data : Channel α} {q' : BoundedQueue α capacity}
    {src : α} (hcall : call = .pull ∧ after = .pulled (some src) ∨
      call = .tryPull ∧ after = .tryPulled (some src))
    (hkept : data.Kept waits q') (hlog : data.log = ch.log ++ [.handed src])
    (hopen : data.isClosed = ch.isClosed) (hlength : q'.elements.length + 1 = q.elements.length) :
    Effect waits ch q call ⟨data, .outside after, if waits then .one .notFull else .none⟩
  | drained {data : Channel α} (hempty : q.elements = []) (hclosed : ch.isClosed = true)
    (hkept : data.Kept waits q) (hlog : data.log = ch.log ++ [.drained])
    (hopen : data.isClosed = ch.isClosed) :
    Effect waits ch q .pull ⟨data, .outside (.pulled none), .none⟩
  | asleep (hempty : q.elements = []) (hopen : ch.isClosed = false) :
    Effect waits ch q .pull ⟨ch, .waiting .notEmpty .pull, .none⟩
  | missed {data : Channel α} (hempty : q.elements = []) (hkept : data.Kept waits q)
    (hlog : data.log = ch.log ++ [.missed]) (hopen : data.isClosed = ch.isClosed) :
    Effect waits ch q .tryPull ⟨data, .outside (.tryPulled none), .none⟩
  | closed : Effect waits ch q .close ch.close

theorem Kept.entered (h : ch.Kept waits q) (hroom : q.elements.length < capacity)
    {ring : RingBuffer α} {e : α} (hring : ring.Keeps (q.push e).2) :
    ({ ch with ring }.note (.entered e)).Kept waits (q.push e).2 := by
  refine h.note hring (BoundedQueue.elements_push hroom).symm ?_ fun heq ↦ nomatch heq
  rw [ChannelEvent.Legal, h.length_eq]
  omega

theorem Kept.effect_fifoMtPush (h : ch.Kept true q) (e : α) :
    Effect true ch q (.push e) (ch.fifoMtPush e) := by
  obtain ⟨hanswer, hring⟩ := h.keeps.push e
  by_cases hroom : q.elements.length < capacity
  · have hnone : (ch.ring.push e).1 = none := by rw [hanswer, BoundedQueue.push, dif_pos hroom]
    have hmove : ch.fifoMtPush e = ⟨{ ch with ring := (ch.ring.push e).2 }.note (.entered e),
        .outside (.idle (some .ok)), .one .notEmpty⟩ := by
      rw [fifoMtPush]
      split
      · next hpush => exact absurd (hpush ▸ hnone) (some_ne_none _)
      · next hpush => rw [hpush]
    have hlength : (q.push e).2.elements.length = q.elements.length + 1 := by
      rw [BoundedQueue.elements_push hroom, length_append, length_singleton]
    rw [hmove]
    exact .entered (h.entered hroom hring) (filterMap_concat ..) rfl hlength.le fun _ ↦ hlength
  · have hmove : ch.fifoMtPush e = ⟨ch, .waiting .notFull (.push e), .none⟩ := by
      rw [BoundedQueue.push_of_full hroom] at hanswer
      rw [fifoMtPush]
      split
      · next hpush =>
        rw [hpush] at hanswer
        rw [some.inj hanswer]
      · next hpush => exact absurd (hpush ▸ hanswer).symm (some_ne_none _)
    rw [hmove]
    exact .full rfl (le_antisymm q.bounded (not_lt.mp hroom))

/-- A forced push makes room where there is none. -/
theorem Kept.effect_ringMtPush (h : ch.Kept false q) (hcapacity : 0 < capacity) (e : α) :
    Effect false ch q (.push e) (ch.ringMtPush e) := by
  obtain ⟨hanswer, hring⟩ := h.keeps.pushForce e
  by_cases hroom : q.elements.length < capacity
  · have hforce : q.pushForce e = q.push e := if_pos hroom
    rw [hforce] at hanswer hring
    have hnone : (ch.ring.pushForce e).1 = none := by rw [hanswer, BoundedQueue.push, dif_pos hroom]
    have hmove : ch.ringMtPush e = ⟨{ ch with ring := (ch.ring.pushForce e).2 }.note (.entered e),
        .outside (.idle (some .ok)), .one .notEmpty⟩ := by
      rcases hpush : ch.ring.pushForce e with ⟨old, ring⟩
      rw [hpush] at hnone
      obtain rfl := hnone
      rw [ringMtPush, hpush]
    rw [hmove]
    refine .entered (h.entered hroom hring) (filterMap_concat ..) rfl (le_of_eq ?_)
      fun hwaits ↦ by cases hwaits
    rw [BoundedQueue.elements_push hroom, length_append, length_singleton]
  · have hforce : q.pushForce e = (q.pull.1, (q.pull.2.push e).2) := if_neg hroom
    rw [hforce] at hanswer hring
    have hlength : q.elements.length = capacity := le_antisymm q.bounded (not_lt.mp hroom)
    obtain ⟨x, xs, hcons⟩ := exists_cons_of_length_pos (hlength.symm ▸ hcapacity)
    have hpulled : q.pull.2.elements = xs := congrArg List.tail hcons
    have hroom' : q.pull.2.elements.length < capacity := by
      rw [hpulled, ← hlength, hcons, length_cons]
      exact Nat.lt_succ_self _
    have hgiven : (ch.ring.pushForce e).1 = some x := hanswer.trans (congrArg List.head? hcons)
    have hmove : ch.ringMtPush e = ⟨({ ch with ring := (ch.ring.pushForce e).2 }.note
        (.discarded x)).note (.entered e), .outside (.idle (some .ok)), .one .notEmpty⟩ := by
      rcases hpush : ch.ring.pushForce e with ⟨old, ring⟩
      rw [hpush] at hgiven
      obtain rfl := hgiven
      rw [ringMtPush, hpush]
    have hdiscarded :
        ({ ch with ring := ch.ring.pull.2 }.note (.discarded x)).Kept false q.pull.2 :=
      h.note h.keeps.pull.2 (by rw [hpulled, hcons]; exact append_nil _)
        ⟨rfl, by rw [h.length_eq, hlength]⟩ fun heq ↦ by cases heq
    have hentered := hdiscarded.entered hroom' hring
    rw [hmove]
    refine .entered hentered ?_ rfl ?_ fun hwaits ↦ by cases hwaits
    · change ((ch.log ++ [ChannelEvent.discarded x]) ++ [ChannelEvent.entered e]).filterMap _ = _
      rw [filterMap_concat, filterMap_concat]
      exact congrArg (· ++ [ChannelEvent.entered e]) (append_nil _)
    rw [BoundedQueue.elements_push hroom', length_append, length_singleton, hpulled,
      hcons, length_cons]
    omega

/-- A pull takes the oldest element if there is one. -/
theorem Kept.pull_cases (h : ch.Kept waits q) : (q.elements = [] ∧ ch.ring.pull.1 = none) ∨
      ∃ src ring, ∃ q' : BoundedQueue α capacity, ch.ring.pull = (some src, ring) ∧
        ({ ch with ring }.note (.handed src)).Kept waits q' ∧
          q'.elements.length + 1 = q.elements.length := by
  obtain ⟨hanswer, hring⟩ := h.keeps.pull
  cases hcons : q.elements with
  | nil => exact .inl ⟨rfl, hanswer.trans (congrArg List.head? hcons)⟩
  | cons x xs =>
    have hpulled : q.pull.2.elements = xs := congrArg List.tail hcons
    refine .inr ⟨x, ch.ring.pull.2, q.pull.2, ?_, ?_, ?_⟩
    · exact Prod.ext (hanswer.trans (congrArg List.head? hcons)) rfl
    · refine h.note hring ?_ trivial fun heq ↦ nomatch heq
      rw [hpulled, hcons]
      exact append_nil _
    · rw [hpulled, length_cons]

theorem Kept.drained (h : ch.Kept waits q) (hempty : q.elements = [])
    (hclosed : ch.isClosed = true) : (ch.note .drained).Kept waits q :=
  h.note h.keeps (append_nil _)
    ⟨by rw [h.flow, hempty, append_nil], h.closed_iff.mp hclosed⟩ fun heq ↦ nomatch heq

theorem Kept.missed (h : ch.Kept waits q) (hempty : q.elements = []) :
    (ch.note .missed).Kept waits q :=
  h.note h.keeps (append_nil _) (by rw [ChannelEvent.Legal, h.flow, hempty, append_nil])
    fun heq ↦ nomatch heq

theorem Kept.effect_pullPass (h : ch.Kept waits q) :
    Effect waits ch q .pull (ch.pullPass (if waits then .one .notFull else .none)) := by
  rw [pullPass]
  obtain ⟨hempty, hnone⟩ | ⟨src, ring, q', hpull, hkept, hlength⟩ := h.pull_cases
  · split
    · next hpull => exact absurd (hpull ▸ hnone) (some_ne_none _)
    · split
      · next hclosed => exact .drained hempty hclosed (h.drained hempty hclosed) rfl rfl
      · next hopen => exact .asleep hempty (Bool.eq_false_of_not_eq_true hopen)
  · rw [hpull]
    exact .handed (.inl ⟨rfl, rfl⟩) hkept rfl rfl hlength

theorem Kept.effect_tryPullPass (h : ch.Kept waits q) :
    Effect waits ch q .tryPull (ch.tryPullPass (if waits then .one .notFull else .none)) := by
  rw [tryPullPass]
  obtain ⟨hempty, hnone⟩ | ⟨src, ring, q', hpull, hkept, hlength⟩ := h.pull_cases
  · split
    · next hpull => exact absurd (hpull ▸ hnone) (some_ne_none _)
    · exact .missed hempty (h.missed hempty) rfl rfl
  · rw [hpull]
    exact .handed (.inr ⟨rfl, rfl⟩) hkept rfl rfl hlength

/-- A pull that has taken nothing from a closed channel says that it is closed. -/
theorem pullEnd_of_closed {ch : Channel α} (otherwise : ChannelAnswer α)
    (hclosed : ch.isClosed = true) : ch.pullEnd otherwise none = .channelClosed := if_pos hclosed

/-- Only of a closed channel a pull says that it is closed. -/
theorem isClosed_of_pullEnd {ch : Channel α} {otherwise : ChannelAnswer α} {src : Option α}
    (h : ch.pullEnd otherwise src = .channelClosed) (hne : otherwise ≠ .channelClosed) :
    ch.isClosed = true := by
  cases src with
  | some src => cases h
  | none =>
    by_contra hopen
    exact hne ((if_neg hopen).symm.trans h)

/-- A kind of channel whose steps have no other effects -/
structure Kind.Sound (kind : Kind α) (capacity : ℕ) (waits : Bool) : Prop where
  effect : ∀ (ch : Channel α) (q : BoundedQueue α capacity) call move, ch.Kept waits q →
    kind.Inside call ch move → Effect waits ch q call move
  pullEnd : ∃ otherwise, otherwise ≠ .channelClosed ∧
    ∀ (ch : Channel α) src, kind.pullEnd ch src = ch.pullEnd otherwise src

theorem fifoMt_sound (capacity : ℕ) : (fifoMt : Kind α).Sound capacity true where
  effect ch q call move h hinside := by
    cases hinside with
    | push ch e => exact h.effect_fifoMtPush e
    | pull ch => exact h.effect_pullPass
    | tryPull ch => exact h.effect_tryPullPass
    | close ch => exact .closed
  pullEnd := ⟨.nullMoved, fun heq ↦ (nomatch heq), fun _ _ ↦ rfl⟩

theorem ringMt_sound (hcapacity : 0 < capacity) : (ringMt : Kind α).Sound capacity false where
  effect ch q call move h hinside := by
    cases hinside with
    | push ch e => exact h.effect_ringMtPush hcapacity e
    | pull ch => exact h.effect_pullPass
    | tryPull ch => exact h.effect_tryPullPass
    | close ch => exact .closed
  pullEnd := ⟨.ok, fun heq ↦ (nomatch heq), fun _ _ ↦ rfl⟩

/-- The queue of a channel after a step -/
theorem Effect.kept (h : Effect waits ch q call move) (hkept : ch.Kept waits q) :
    ∃ q' : BoundedQueue α capacity, move.data.Kept waits q' := by
  cases h with
  | entered hkept' => exact ⟨_, hkept'⟩
  | full => exact ⟨q, hkept⟩
  | handed _ hkept' => exact ⟨_, hkept'⟩
  | drained _ _ hkept' => exact ⟨q, hkept'⟩
  | asleep => exact ⟨q, hkept⟩
  | missed _ hkept' => exact ⟨q, hkept'⟩
  | closed => exact ⟨q, hkept.close⟩

/-- A channel is not opened again. -/
theorem Effect.isClosed (h : Effect waits ch q call move) (hclosed : ch.isClosed = true) :
    move.data.isClosed = true := by
  cases h with
  | entered _ _ hopen => exact hopen.trans hclosed
  | full => exact hclosed
  | handed _ _ _ hopen => exact hopen.trans hclosed
  | drained _ _ _ _ hopen => exact hopen.trans hclosed
  | asleep => exact hclosed
  | missed _ _ _ hopen => exact hopen.trans hclosed
  | closed => rfl

/-- The thread takes to its account what the step writes into the log, and nothing else. -/
theorem Effect.writes {thread : ChannelThread α} (h : Effect waits ch q thread.call move) :
    Writes thread.account ((ch.log.filterMap ChannelEvent.told).map some)
      (move.map thread.goes).place.state.account
      ((move.data.log.filterMap ChannelEvent.told).map some) := by
  obtain ⟨call, answers⟩ := thread
  have hconcat : ∀ {log log' : List (ChannelEvent α)} {event : ChannelEvent α},
      log' = log ++ [event] → event.told = some event →
        (log'.filterMap ChannelEvent.told).map some =
          (log.filterMap ChannelEvent.told).map some ++ [some event] := by
    intro log log' event hlog htold
    rw [hlog, filterMap_concat, htold, map_append]
    rfl
  change Effect waits ch q call move at h
  cases h with
  | @entered e data q' hkept hlog =>
    refine .inr ⟨some (.entered e), ?_, by rw [hlog, map_append]; rfl⟩
    change (answers ++ [(ChannelRequest.push e, ChannelAnswer.ok)]).map _ ++ [] =
      (answers.map _ ++ []) ++ [_]
    rw [map_append, append_nil, append_nil]
    rfl
  | full => exact .inl ⟨rfl, rfl⟩
  | @handed call after data q' src hcall hkept hlog =>
    refine .inr ⟨some (.handed src), ?_, hconcat hlog rfl⟩
    obtain ⟨rfl, rfl⟩ | ⟨rfl, rfl⟩ := hcall
    · exact (congrArg (· ++ [some (ChannelEvent.handed src)]) (append_nil _)).symm
    · exact (congrArg (· ++ [some (ChannelEvent.handed src)]) (append_nil _)).symm
  | drained _ _ _ hlog =>
    refine .inr ⟨some .drained, ?_, hconcat hlog rfl⟩
    exact (congrArg (· ++ [some ChannelEvent.drained]) (append_nil _)).symm
  | asleep => exact .inl ⟨rfl, rfl⟩
  | missed _ _ hlog =>
    refine .inr ⟨some .missed, ?_, hconcat hlog rfl⟩
    exact (congrArg (· ++ [some ChannelEvent.missed]) (append_nil _)).symm
  | closed =>
    refine .inr ⟨some .closed, ?_, hconcat rfl rfl⟩
    change (answers ++ [(ChannelRequest.close, ChannelAnswer.ok)]).map _ ++ [] =
      (answers.map _ ++ []) ++ [_]
    rw [map_append, append_nil, append_nil]
    rfl

end Kept

/-! ### Runs -/

section Runs

variable {τ : Type} [DecidableEq τ] {val : ℕ → Option α} {capacity : ℕ} {waits : Bool}
  {kind : Kind α} {s : Monitor τ ChannelCondvar (Channel α) (ChannelThread α)}

theorem Kind.Sound.kept (hkind : kind.Sound capacity waits)
    (h : Monitor.Reached kind.threads (start val capacity) s) :
    ∃ q : BoundedQueue α capacity, s.data.Kept waits q := by
  refine h.induct (J := fun s ↦ ∃ q : BoundedQueue α capacity, s.data.Kept waits q)
    ⟨_, kept_init val capacity waits⟩ fun s s' _ ⟨q, hkept⟩ hstep ↦ ?_
  cases hstep with
  | call => exact ⟨q, hkept⟩
  | lock => exact ⟨q, hkept⟩
  | expire => exact ⟨q, hkept⟩
  | atomic _ hends =>
    obtain ⟨call, hends, -⟩ := hends
    exact hends.data_eq ▸ ⟨q, hkept⟩
  | inside _ hinside _ =>
    obtain ⟨step, hinside, rfl⟩ := hinside
    exact (hkind.effect _ q _ step hkept hinside).kept hkept

/-- What is known of a thread from where it stands, and from its answers -/
structure Placed (waits : Bool) (place : Place ChannelCondvar (ChannelThread α))
    (ch : Channel α) : Prop where
  pulled : place.state.call = .pulled none → ch.isClosed = true
  waitsFull : ∀ thread, place = .waiting .notFull thread → waits = true ∧ ∃ e, thread.call = .push e
  waitsEmpty : ∀ thread, place = .waiting .notEmpty thread → thread.call = .pull
  answers : ∀ request, (request, .channelClosed) ∈ place.state.answers → ch.isClosed = true

variable {place : Place ChannelCondvar (ChannelThread α)}

theorem Placed.mono {ch : Channel α} (h : Placed waits place ch)
    (hclosed : ch.isClosed = true → ch'.isClosed = true) : Placed waits place ch' where
  pulled hplace := hclosed (h.pulled hplace)
  waitsFull := h.waitsFull
  waitsEmpty := h.waitsEmpty
  answers request hmem := hclosed (h.answers request hmem)

/-- The answers of a thread that goes on -/
theorem mem_answers_goes {thread : ChannelThread α} {answered : ChannelRequest α × ChannelAnswer α}
    (h : answered ∈ (thread.goes call).answers) :
    answered ∈ thread.answers ∨ call = .idle (some answered.2) := by
  unfold ChannelThread.goes at h
  split at h
  · obtain hmem | hmem := mem_append.mp h
    · exact .inl hmem
    · rw [mem_singleton.mp hmem]
      exact .inr rfl
  · exact .inl h

theorem call_goes (thread : ChannelThread α) (call : ChannelCall α) :
    (thread.goes call).call = call := by
  unfold ChannelThread.goes
  split <;> rfl

/-- A thread that goes on to a place where it does not sleep -/
theorem Placed.goes (thread : ChannelThread α) (call : ChannelCall α) {ch : Channel α}
    (hstate : place.state = thread.goes call) (hawake : ∀ c l, place ≠ .waiting c l)
    (hanswers : ∀ request, (request, .channelClosed) ∈ thread.answers → ch.isClosed = true)
    (hclosed : ch.isClosed = true → ch'.isClosed = true)
    (hcall : call = .pulled none ∨ call = .idle (some .channelClosed) → ch'.isClosed = true) :
    Placed waits place ch' where
  pulled hplace := hcall (.inl (by rw [← hplace, hstate, call_goes]))
  waitsFull _ heq := absurd heq (hawake _ _)
  waitsEmpty _ heq := absurd heq (hawake _ _)
  answers request hmem := by
    rw [hstate] at hmem
    obtain hmem | heq := mem_answers_goes hmem
    · exact hclosed (hanswers request hmem)
    · exact hcall (.inr heq)

theorem Effect.placed {ch : Channel α} {q : BoundedQueue α capacity} {thread : ChannelThread α}
    (h : Effect waits ch q thread.call move)
    (hanswers : ∀ request, (request, .channelClosed) ∈ thread.answers → ch.isClosed = true) :
    Placed waits (move.map thread.goes).place move.data := by
  have hclosed := h.isClosed
  obtain ⟨call, answers⟩ := thread
  change Effect waits ch q call move at h
  cases h with
  | entered =>
    refine .goes ⟨_, answers⟩ (.idle (some .ok)) rfl (fun _ _ heq ↦ nomatch heq) hanswers hclosed
      fun hcall ↦ ?_
    obtain heq | heq := hcall <;> cases heq
  | @full e hwaits =>
    refine ⟨fun heq ↦ (nomatch heq), fun thread heq ↦ ?_, fun _ heq ↦ (nomatch heq), hanswers⟩
    cases heq
    exact ⟨hwaits, e, rfl⟩
  | @handed _ after _ _ _ hcall =>
    refine .goes ⟨_, answers⟩ after rfl (fun _ _ heq ↦ nomatch heq) hanswers hclosed fun hafter ↦ ?_
    obtain ⟨-, rfl⟩ | ⟨-, rfl⟩ := hcall
    · obtain heq | heq := hafter <;> cases heq
    · obtain heq | heq := hafter <;> cases heq
  | drained _ hdrained =>
    exact .goes ⟨_, answers⟩ (.pulled none) rfl (fun _ _ heq ↦ nomatch heq) hanswers hclosed
      fun _ ↦ hclosed hdrained
  | asleep =>
    refine ⟨fun heq ↦ (nomatch heq), fun _ heq ↦ (nomatch heq), fun thread heq ↦ ?_, hanswers⟩
    cases heq
    rfl
  | missed =>
    refine .goes ⟨_, answers⟩ (.tryPulled none) rfl (fun _ _ heq ↦ nomatch heq) hanswers hclosed
      fun hcall ↦ ?_
    obtain heq | heq := hcall <;> cases heq
  | closed =>
    exact .goes ⟨_, answers⟩ (.idle (some .ok)) rfl (fun _ _ heq ↦ nomatch heq) hanswers hclosed
      fun _ ↦ rfl

/-- Only of a closed channel a call answers that it is closed. -/
theorem Kind.Ends.isClosed (h : kind.Sound capacity waits) {ch ch' : Channel α}
    {call : ChannelCall α} (hends : kind.Ends call ch ch' (.idle (some .channelClosed))) :
    ch'.isClosed = true := by
  generalize hafter : ChannelCall.idle (some .channelClosed) = after at hends
  cases hends with
  | pulled ch src =>
    obtain ⟨otherwise, hne, hpullEnd⟩ := h.pullEnd
    have hanswer := some.inj (ChannelCall.idle.inj hafter)
    exact isClosed_of_pullEnd ((hpullEnd ch src).symm.trans hanswer.symm) hne
  | tryPulled ch src =>
    have hanswer := some.inj (ChannelCall.idle.inj hafter)
    exact isClosed_of_pullEnd hanswer.symm fun heq ↦ nomatch heq

/-- The answer of a pull says what it has taken. -/
theorem Kind.Ends.account_goes (h : kind.Sound capacity waits) {ch ch' : Channel α}
    {thread : ChannelThread α} {call : ChannelCall α} (hends : kind.Ends thread.call ch ch' call)
    (hplaced : thread.call = .pulled none → ch.isClosed = true) :
    (thread.goes call).account = thread.account := by
  obtain ⟨before, answers⟩ := thread
  change kind.Ends before ch ch' call at hends
  change before = .pulled none → ch.isClosed = true at hplaced
  have hconcat : ∀ (request : ChannelRequest α) answer event, request.told answer = event →
      (answers ++ [(request, answer)]).map (fun answered ↦ answered.1.told answered.2) ++ [] =
        answers.map (fun answered ↦ answered.1.told answered.2) ++ [event] := by
    intro request answer event htold
    rw [append_nil, map_append, ← htold]
    rfl
  cases hends with
  | pulled ch src =>
    obtain ⟨otherwise, -, hpullEnd⟩ := h.pullEnd
    cases src with
    | some src => exact hconcat .pull _ _ (by rw [hpullEnd]; rfl)
    | none => exact hconcat .pull _ _ (by rw [hpullEnd, pullEnd_of_closed _ (hplaced rfl)]; rfl)
  | tryPulled ch src =>
    cases src with
    | some src => exact hconcat .tryPull _ _ rfl
    | none =>
      refine hconcat .tryPull _ _ ?_
      change ChannelRequest.told .tryPull (if ch.isClosed then .channelClosed else _) = _
      split <;> rfl

theorem Kind.Sound.placed (hkind : kind.Sound capacity waits)
    (h : Monitor.Reached kind.threads (start val capacity) s) (t : τ) :
    Placed waits (s.place t) s.data := by
  refine h.forall_place (J := fun s ↦ ∃ q : BoundedQueue α capacity, s.data.Kept waits q)
    (fun s hreached ↦ hkind.kept hreached) (fun _ ↦ ?_) ?_ ?_ ?_ ?_ ?_ t
  · exact ⟨fun heq ↦ (nomatch heq), fun _ heq ↦ (nomatch heq), fun _ heq ↦ (nomatch heq),
      fun _ hmem ↦ absurd hmem not_mem_nil⟩
  · rintro thread - ch ⟨call, hbegins, rfl⟩ hplaced
    refine .goes thread call rfl (fun _ _ heq ↦ nomatch heq) hplaced.answers id fun hcall ↦ ?_
    generalize thread.call = before at hbegins
    cases hbegins <;> obtain heq | heq := hcall <;> cases heq
  · rintro s t thread - d _ _ ⟨call, hends, rfl⟩ hplaced
    have hdata := hends.data_eq
    subst hdata
    refine ⟨.goes thread call rfl (fun _ _ heq ↦ nomatch heq) hplaced.answers id ?_,
      fun _ _ hother ↦ hother⟩
    generalize thread.call = before at hends
    rintro (rfl | rfl)
    · cases hends
    · exact hends.isClosed hkind
  · intro thread ch hplaced
    exact ⟨hplaced.pulled, fun _ heq ↦ (nomatch heq), fun _ heq ↦ (nomatch heq), hplaced.answers⟩
  · rintro s t thread - ⟨q, hkept⟩ _ ⟨step, hinside, rfl⟩ hplaced
    have heffect := hkind.effect _ q _ _ hkept hinside
    exact ⟨heffect.placed hplaced.answers, fun _ _ hother ↦ hother.mono heffect.isClosed⟩
  · rintro c thread thread' ch hsame hplaced
    obtain rfl := hsame.resolve_right not_false
    exact ⟨hplaced.pulled, fun _ heq ↦ (nomatch heq), fun _ heq ↦ (nomatch heq), hplaced.answers⟩

/-- What the calls have answered is what the log tells, each event once. -/
theorem Kind.Sound.interleaves (hkind : kind.Sound capacity waits)
    (h : Monitor.Reached kind.threads (start val capacity) s) :
    Interleaves (fun t : τ ↦ (s.place t).state.account)
      ((s.data.log.filterMap ChannelEvent.told).map some) := by
  refine h.interleaves (A := ChannelThread.account)
    (L := fun ch : Channel α ↦ (ch.log.filterMap ChannelEvent.told).map some)
    (J := fun s ↦ (∃ q : BoundedQueue α capacity, s.data.Kept waits q) ∧
      ∀ t, Placed waits (s.place t) s.data)
    (fun s hreached ↦ ⟨hkind.kept hreached, hkind.placed hreached⟩) ⟨rfl, fun _ ↦ rfl⟩ ?_ ?_ ?_ ?_
  · rintro ⟨before, answers⟩ - ⟨call, hbegins, rfl⟩
    cases hbegins <;> rfl
  · rintro s t thread - d ⟨-, hplaced⟩ hplace ⟨call, hends, rfl⟩
    have hdata := hends.data_eq
    subst hdata
    have hpulled := (hplaced t).pulled
    rw [hplace] at hpulled
    exact .inl ⟨hends.account_goes hkind hpulled, rfl⟩
  · rintro s t thread - ⟨⟨q, hkept⟩, -⟩ _ ⟨step, hinside, rfl⟩
    exact (hkind.effect _ q _ _ hkept hinside).writes
  · exact fun _ _ hexpire ↦ hexpire.elim

/-- No call has an answer that its request cannot have. -/
theorem Kind.Sound.told_ne_none (hkind : kind.Sound capacity waits)
    (h : Monitor.Reached kind.threads (start val capacity) s) {t : τ} {request : ChannelRequest α}
    {answer : ChannelAnswer α} (hmem : (request, answer) ∈ (s.place t).state.answers) :
    request.told answer ≠ none := by
  intro hnone
  have hmem' : none ∈ (s.place t).state.account :=
    mem_append_left _ (List.mem_map.mpr ⟨_, hmem, hnone⟩)
  obtain ⟨event, -, heq⟩ := List.mem_map.mp ((hkind.interleaves h).mem hmem')
  exact some_ne_none _ heq

/-- While threads sleep on a channel that is empty, it is not closed: closing wakes all of them. -/
theorem Kind.Sound.awake (hkind : kind.Sound capacity waits)
    (h : Monitor.Reached kind.threads (start val capacity) s) :
    s.Awake (fun c _ ch ↦ c = .notEmpty ∧ ch.isClosed = true) (fun _ _ ↦ False) := by
  refine h.awake (J := fun s ↦ ∃ q : BoundedQueue α capacity, s.data.Kept waits q)
    (start_rests val capacity) (fun s hreached ↦ hkind.kept hreached) ?_ ?_ ?_
  · rintro s t thread - d _ _ ⟨call, hends, rfl⟩ u c k _ ⟨hc, hclosed⟩
    exact ⟨hc, hends.data_eq ▸ hclosed⟩
  · rintro s t ⟨call, answers⟩ - c k ⟨q, hkept⟩ _ ⟨step, hinside, rfl⟩ hsleep hready
    cases hkind.effect _ q call _ hkept hinside with
    | full => cases hsleep; exact nomatch hready.1
    | asleep _ hopen => exact Bool.false_ne_true (hopen.symm.trans hready.2)
    | _ => cases hsleep
  · rintro s t ⟨call, answers⟩ - ⟨q, hkept⟩ _ ⟨step, hinside, rfl⟩ u c k _ _ ⟨hc, hclosed⟩
    subst hc
    cases hkind.effect _ q call _ hkept hinside with
    | entered _ _ hopen => exact .inr (.inr ⟨not_false, rfl, hopen.symm.trans hclosed⟩)
    | full => exact .inr (.inr ⟨not_false, rfl, hclosed⟩)
    | handed _ _ _ hopen => exact .inr (.inr ⟨not_false, rfl, hopen.symm.trans hclosed⟩)
    | drained _ _ _ _ hopen => exact .inr (.inr ⟨not_false, rfl, hopen.symm.trans hclosed⟩)
    | asleep => exact .inr (.inr ⟨not_false, rfl, hclosed⟩)
    | missed _ _ _ hopen => exact .inr (.inr ⟨not_false, rfl, hopen.symm.trans hclosed⟩)
    | closed => exact .inl rfl

/-- A thread in a pull -/
def isPull (thread : ChannelThread α) : Bool :=
  match thread.call with
  | .pull => true
  | _ => false

/-- A thread in a push -/
def isPush (thread : ChannelThread α) : Bool :=
  match thread.call with
  | .push _ => true
  | _ => false

variable [Fintype τ]

/-- While pulls sleep, there are as many awake as there are elements. -/
theorem Kind.Sound.enough_pulls (hkind : kind.Sound capacity waits)
    (h : Monitor.Reached kind.threads (start val capacity) s) :
    s.Enough .notEmpty isPull fun ch ↦ ch.ring.len := by
  refine h.enough (J := fun s ↦ ∃ q : BoundedQueue α capacity, s.data.Kept waits q)
    (start_rests val capacity) (fun s hreached ↦ hkind.kept hreached) ?_ ?_ ?_
  · rintro thread - d d' ⟨call, hends, -⟩
    rw [hends.data_eq]
  · rintro s t ⟨call, answers⟩ - k ⟨q, hkept⟩ _ ⟨step, hinside, rfl⟩ hsleep
    cases hkind.effect _ q call _ hkept hinside with
    | full => cases hsleep
    | asleep hempty hopen =>
      cases hsleep
      exact ⟨rfl, by rw [Move.data_map, hkept.len_eq, hempty, length_nil]⟩
    | _ => cases hsleep
  · rintro s t ⟨call, answers⟩ - ⟨q, hkept⟩ _ ⟨step, hinside, rfl⟩
    have hweight : (isPull ⟨call, answers⟩).toNat ≤ 1 := Bool.toNat_le _
    cases hkind.effect _ q call _ hkept hinside with
    | @entered e data q' hkept' _ _ hle _ =>
      refine .inr (.inr ?_)
      change data.ring.len ≤ s.data.ring.len + 0 + 1
      rw [hkept.len_eq, hkept'.len_eq]
      exact hle
    | full => exact .inr (.inr (Nat.le_add_right _ _))
    | @handed _ after data q' src hcall hkept' _ _ hlength =>
      refine .inr (.inr ?_)
      rw [Move.data_map, hkept.len_eq, hkept'.len_eq, ← hlength]
      exact Nat.le_add_right_of_le (Nat.le_add_right_of_le (Nat.add_le_add_left hweight _))
    | drained hempty _ hkept' =>
      exact .inr (.inl (by rw [Move.data_map, hkept'.len_eq, hempty, length_nil]))
    | asleep hempty _ =>
      exact .inr (.inl (by rw [Move.data_map, hkept.len_eq, hempty, length_nil]))
    | missed hempty hkept' =>
      exact .inr (.inl (by rw [Move.data_map, hkept'.len_eq, hempty, length_nil]))
    | closed => exact .inl rfl

/-- While pushes sleep, there are as many awake as there are free places. -/
theorem Kind.Sound.enough_pushes (hkind : kind.Sound capacity true)
    (h : Monitor.Reached kind.threads (start val capacity) s) :
    s.Enough .notFull isPush fun ch ↦ ch.ring.ringCapacity - ch.ring.len := by
  refine h.enough (J := fun s ↦ ∃ q : BoundedQueue α capacity, s.data.Kept true q)
    (start_rests val capacity) (fun s hreached ↦ hkind.kept hreached) ?_ ?_ ?_
  · rintro thread - d d' ⟨call, hends, -⟩
    rw [hends.data_eq]
  · rintro s t ⟨call, answers⟩ - k ⟨q, hkept⟩ _ ⟨step, hinside, rfl⟩ hsleep
    cases hkind.effect _ q call _ hkept hinside with
    | full _ hfull =>
      cases hsleep
      exact ⟨rfl, by
        rw [Move.data_map, hkept.keeps.ringCapacity_eq, hkept.len_eq, hfull, Nat.sub_self]⟩
    | _ => cases hsleep
  · rintro s t ⟨call, answers⟩ - ⟨q, hkept⟩ _ ⟨step, hinside, rfl⟩
    have hcapacity := hkept.keeps.ringCapacity_eq
    cases hkind.effect _ q call _ hkept hinside with
    | @entered e data q' hkept' _ _ _ hwaits =>
      have hlength := hwaits rfl
      have hbounded := q'.bounded
      refine .inr (.inr ?_)
      rw [Move.data_map, hcapacity, hkept.len_eq, hkept'.keeps.ringCapacity_eq, hkept'.len_eq]
      change _ + 1 ≤ _ + 0 + 0
      omega
    | full _ hfull =>
      exact .inr (.inl (by rw [Move.data_map, hcapacity, hkept.len_eq, hfull, Nat.sub_self]))
    | @handed _ after data q' src hcall hkept' _ _ hlength =>
      refine .inr (.inr ?_)
      have hweight : isPush ⟨call, answers⟩ = false := by
        obtain ⟨rfl, -⟩ | ⟨rfl, -⟩ := hcall <;> rfl
      rw [Move.data_map, hcapacity, hkept.len_eq, hkept'.keeps.ringCapacity_eq, hkept'.len_eq,
        Monitor.takerWeight, hweight]
      change _ + 0 ≤ _ + 0 + 1
      omega
    | drained hempty _ hkept' =>
      refine .inr (.inr ?_)
      rw [Move.data_map, hcapacity, hkept.len_eq, hkept'.keeps.ringCapacity_eq, hkept'.len_eq]
      exact Nat.le_add_right _ _
    | asleep => exact .inr (.inr (Nat.le_add_right _ _))
    | missed hempty hkept' =>
      refine .inr (.inr ?_)
      rw [Move.data_map, hcapacity, hkept.len_eq, hkept'.keeps.ringCapacity_eq, hkept'.len_eq]
      exact Nat.le_add_right _ _
    | closed => exact .inr (.inr (Nat.le_add_right _ _))

/-- Where no thread holds the mutex or asks for it, pulls sleep on an empty channel only. -/
theorem Kind.Sound.asleep (hkind : kind.Sound capacity waits)
    (h : Monitor.Reached kind.threads (start val capacity) s) (hquiet : s.Quiet) {t : τ}
    {thread : ChannelThread α} (hplace : s.place t = .waiting .notEmpty thread) :
    s.data.ring.isEmpty = true ∧ s.data.isClosed = false := by
  obtain ⟨q, hkept⟩ := hkind.kept h
  have hlength := (hkind.enough_pulls h).need_eq_zero hquiet hplace
  rw [hkept.len_eq] at hlength
  refine ⟨hkept.keeps.holds.isEmpty_iff.mpr (eq_nil_of_length_eq_zero hlength), ?_⟩
  exact Bool.eq_false_of_not_eq_true fun hclosed ↦
    (hkind.awake h).not_ready (fun u l ↦ (hquiet u l).1) hplace ⟨rfl, hclosed⟩

end Runs

variable {τ : Type} [DecidableEq τ] {val : ℕ → Option α} {capacity : ℕ}
  {s : Monitor τ ChannelCondvar (Channel α) (ChannelThread α)}

/-- What holds of a channel and of what its threads were told -/
structure Lawful (capacity : ℕ) (waits : Bool)
    (s : Monitor τ ChannelCondvar (Channel α) (ChannelThread α)) : Prop where
  /-- The elements leave in the order in which they have entered, each once. -/
  flow : ∃ q : BoundedQueue α capacity, s.data.ring.Keeps q ∧
    s.data.log.filterMap ChannelEvent.entering =
      s.data.log.filterMap ChannelEvent.leaving ++ q.elements
  /-- Everything happens only where it may. -/
  legal : LegalLog (ChannelEvent.Legal capacity waits) s.data.log
  /-- Every call has done what its answer says, in the order in which its thread has called, and
  nothing else has happened but that a push made room. -/
  told : Interleaves (fun t ↦ (s.place t).state.account)
    ((s.data.log.filterMap ChannelEvent.told).map some)
  /-- No call has an answer that its request cannot have. -/
  answers : ∀ t request answer, (request, answer) ∈ (s.place t).state.answers →
    request.told answer ≠ none
  /-- No call says that the channel is closed while it is not. -/
  closed : ∀ t request, (request, .channelClosed) ∈ (s.place t).state.answers → .closed ∈ s.data.log

theorem Kind.Sound.lawful {kind : Kind α} {waits : Bool} (hkind : kind.Sound capacity waits)
    (h : Monitor.Reached kind.threads (start val capacity) s) : Lawful capacity waits s := by
  obtain ⟨q, hkept⟩ := hkind.kept h
  exact {
    flow := ⟨q, hkept.keeps, hkept.flow⟩
    legal := hkept.legal
    told := hkind.interleaves h
    answers := fun t request answer hmem ↦ hkind.told_ne_none h hmem
    closed := fun t request hmem ↦
      hkept.closed_iff.mp ((hkind.placed h t).answers request hmem) }

/-- In every run of any number of threads on a `_z_fifo_mt_t`, the elements leave in the order in
which they have entered, each once; none is discarded; every call has done what it answers; a pull
that gives up has found the channel closed and everything that had entered gone; and no pull moves a
null pointer. -/
theorem fifo_channel_sound
    (h : Monitor.Reached fifoMt.threads (start val capacity : Monitor τ _ _ _) s) :
    Lawful capacity true s ∧ ∀ t request, (request, .nullMoved) ∉ (s.place t).state.answers := by
  have hlawful := (fifoMt_sound capacity).lawful h
  refine ⟨hlawful, fun t request hmem ↦ hlawful.answers t request .nullMoved hmem ?_⟩
  cases request <;> rfl

/-- A signal on `c` while nobody sleeps there -/
theorem wakes_one_of_none {place : Bool → Place ChannelCondvar (ChannelThread ℕ)}
    {c : ChannelCondvar}
    (h : (place false).wakeAll c = place false ∧ (place true).wakeAll c = place true) :
    Wakes place (.one c) place := by
  refine .inr ⟨fun t thread hplace ↦ ?_, rfl⟩
  have hwake : (place t).wakeAll c = place t := by
    cases t
    · exact h.1
    · exact h.2
  rw [hplace] at hwake
  exact Place.wakeAll_ne c (.waiting c thread) thread hwake

/-- Two threads share a channel with room for one element. One pulls before there is an element, is
woken by the first push of the other, and pulls on. The other pushes twice more, has to wait for
room, and closes. -/
theorem reached_fifoMt : ∃ s s' : Monitor Bool ChannelCondvar (Channel ℕ) (ChannelThread ℕ),
    (Monitor.Reached fifoMt.threads (start (fun _ ↦ none) 1) s ∧
      s.place false = .outside ⟨.idle (some (.element 3)), [(.pull, .element 3)]⟩ ∧
        s.place true = .waiting .notFull ⟨.push 5, [(.push 3, .ok), (.push 4, .ok)]⟩) ∧
      Monitor.Reached fifoMt.threads (start (fun _ ↦ none) 1) s' ∧
        s'.data.log = [.entered 3, .handed 3, .entered 4, .handed 4, .entered 5, .closed,
          .handed 5, .drained, .missed] ∧
            (s'.place false).state.answers = [(.pull, .element 3), (.pull, .element 4),
              (.pull, .element 5), (.pull, .channelClosed), (.tryPull, .channelClosed)] ∧
                (s'.place true).state.answers = [(.push 3, .ok), (.push 4, .ok), (.push 5, .ok),
                  (.close, .ok)] := by
  have h₀ : Monitor.Reached fifoMt.threads
      (start (fun _ ↦ none) 1 : Monitor Bool _ (Channel ℕ) _) _ := .start
  have h₁ := h₀.enters (t := false) rfl rfl ⟨_, .pull none, rfl⟩ ⟨_, .pull _, rfl⟩ rfl
  have h₂ := h₁.enters (t := true) rfl rfl ⟨_, .push none 3, rfl⟩ ⟨_, .push _ 3, rfl⟩
    (Or.inl ⟨false, _, rfl, rfl⟩)
  have h₃ := h₂.resumes (t := false) rfl rfl ⟨_, .pull _, rfl⟩ (wakes_one_of_none ⟨rfl, rfl⟩)
  have h₄ := h₃.step (.atomic (t := false) rfl ⟨_, .pulled _ _, rfl⟩)
  have h₅ := h₄.enters (t := true) rfl rfl ⟨_, .push _ 4, rfl⟩ ⟨_, .push _ 4, rfl⟩
    (wakes_one_of_none ⟨rfl, rfl⟩)
  have h₆ := h₅.enters (t := true) rfl rfl ⟨_, .push _ 5, rfl⟩ ⟨_, .push _ 5, rfl⟩ rfl
  -- From here on the last push waits for the room that the next pull makes.
  have h₇ := h₆.enters (t := false) rfl rfl ⟨_, .pull _, rfl⟩ ⟨_, .pull _, rfl⟩
    (Or.inl ⟨true, _, rfl, rfl⟩)
  have h₈ := h₇.resumes (t := true) rfl rfl ⟨_, .push _ 5, rfl⟩ (wakes_one_of_none ⟨rfl, rfl⟩)
  have h₉ := h₈.step (.atomic (t := false) rfl ⟨_, .pulled _ _, rfl⟩)
  have h₁₀ := h₉.enters (t := true) rfl rfl ⟨_, .close _, rfl⟩ ⟨_, .close _, rfl⟩ rfl
  have h₁₁ := (h₁₀.enters (t := false) rfl rfl ⟨_, .pull _, rfl⟩ ⟨_, .pull _, rfl⟩
    (wakes_one_of_none ⟨rfl, rfl⟩)).step (.atomic (t := false) rfl ⟨_, .pulled _ _, rfl⟩)
  have h₁₂ := (h₁₁.enters (t := false) rfl rfl ⟨_, .pull _, rfl⟩ ⟨_, .pull _, rfl⟩ rfl).step
    (.atomic (t := false) rfl ⟨_, .pulled _ _, rfl⟩)
  have h₁₃ := (h₁₂.enters (t := false) rfl rfl ⟨_, .tryPull _, rfl⟩ ⟨_, .tryPull _, rfl⟩ rfl).step
    (.atomic (t := false) rfl ⟨_, .tryPulled _ _, rfl⟩)
  exact ⟨_, _, ⟨h₆, rfl, rfl⟩, h₁₃, rfl, rfl, rfl⟩

theorem fifo_channel_sound_twoThreads :
    ∃ s : Monitor Bool ChannelCondvar (Channel ℕ) (ChannelThread ℕ),
      s.data.log = [.entered 3, .handed 3, .entered 4, .handed 4, .entered 5, .closed, .handed 5,
        .drained, .missed] ∧
          (s.place false).state.answers = [(.pull, .element 3), (.pull, .element 4),
            (.pull, .element 5), (.pull, .channelClosed), (.tryPull, .channelClosed)] ∧
              (s.place true).state.answers = [(.push 3, .ok), (.push 4, .ok), (.push 5, .ok),
                (.close, .ok)] ∧ Lawful 1 true s := by
  obtain ⟨-, s, -, hreached, hlog, hfalse, htrue⟩ := reached_fifoMt
  exact ⟨s, hlog, hfalse, htrue, (fifo_channel_sound hreached).1⟩

variable [Fintype τ]

/-- No wake-up is lost on a `_z_fifo_mt_t`: where no thread holds the mutex or asks for it, pulls
sleep only while the channel is empty and not closed, and pushes only while it is full. -/
theorem fifo_channel_wakes
    (h : Monitor.Reached fifoMt.threads (start val capacity : Monitor τ _ _ _) s)
    (hquiet : s.Quiet) {t : τ} {c : ChannelCondvar} {thread : ChannelThread α}
    (hplace : s.place t = .waiting c thread) :
    match c with
    | .notEmpty => thread.call = .pull ∧ s.data.ring.isEmpty = true ∧ s.data.isClosed = false
    | .notFull => (∃ e, thread.call = .push e) ∧ s.data.ring.isFull = true := by
  have hplaced := (fifoMt_sound capacity).placed h t
  cases c with
  | notEmpty =>
    exact ⟨hplaced.waitsEmpty thread hplace, (fifoMt_sound capacity).asleep h hquiet hplace⟩
  | notFull =>
    refine ⟨(hplaced.waitsFull thread hplace).2, ?_⟩
    obtain ⟨q, hkept⟩ := (fifoMt_sound capacity).kept h
    have hroom := ((fifoMt_sound capacity).enough_pushes h).need_eq_zero hquiet hplace
    rw [hkept.keeps.holds.isFull_iff]
    have hbounded := q.bounded
    rw [hkept.keeps.ringCapacity_eq, hkept.len_eq] at hroom
    rw [hkept.keeps.ringCapacity_eq]
    omega

/-- A push sleeps after two others, whose elements a pull has waited for and left. -/
theorem fifo_channel_wakes_pushAsleep :
    ∃ s : Monitor Bool ChannelCondvar (Channel ℕ) (ChannelThread ℕ),
      s.place true = .waiting .notFull ⟨.push 5, [(.push 3, .ok), (.push 4, .ok)]⟩ ∧
        s.place false = .outside ⟨.idle (some (.element 3)), [(.pull, .element 3)]⟩ ∧
          s.data.ring.isFull = true := by
  obtain ⟨s, -, ⟨hreached, hfalse, htrue⟩, -⟩ := reached_fifoMt
  have hquiet : s.Quiet := by
    intro t thread
    cases t
    · rw [hfalse]
      exact ⟨fun h ↦ (nomatch h), fun h ↦ (nomatch h)⟩
    · rw [htrue]
      exact ⟨fun h ↦ (nomatch h), fun h ↦ (nomatch h)⟩
  exact ⟨s, htrue, hfalse, (fifo_channel_wakes hreached hquiet htrue).2⟩

/-- In every run of any number of threads on a `_z_ring_mt_t`, the elements leave in the order in
which they have entered, each once, to a pull or, only where the channel is full, discarded by a
push; every call has done what it answers; no push sleeps, and no wake-up of a pull is lost. -/
theorem ring_channel_sound (hcapacity : 0 < capacity)
    (h : Monitor.Reached ringMt.threads (start val capacity : Monitor τ _ _ _) s) :
    Lawful capacity false s ∧
      (∀ t c thread, s.place t = .waiting c thread → c = .notEmpty ∧ thread.call = .pull) ∧
        (s.Quiet → ∀ t c thread, s.place t = .waiting c thread →
          s.data.ring.isEmpty = true ∧ s.data.isClosed = false) := by
  have hkind := ringMt_sound (α := α) hcapacity
  have hsleeps : ∀ t c thread, s.place t = .waiting c thread →
      c = .notEmpty ∧ thread.call = .pull := by
    intro t c thread hplace
    have hplaced := hkind.placed h t
    cases c with
    | notEmpty => exact ⟨rfl, hplaced.waitsEmpty thread hplace⟩
    | notFull => exact nomatch (hplaced.waitsFull thread hplace).1
  refine ⟨hkind.lawful h, hsleeps, fun hquiet t c thread hplace ↦ ?_⟩
  obtain ⟨rfl, -⟩ := hsleeps t c thread hplace
  exact hkind.asleep h hquiet hplace

/-- One of two threads pulls before there is an element. The other wakes it, discards an element by
pushing into the full channel, closes it, and pulls once more than it holds. -/
theorem ring_channel_sound_twoThreads :
    ∃ s : Monitor Bool ChannelCondvar (Channel ℕ) (ChannelThread ℕ),
      s.data.log = [.entered 3, .handed 3, .entered 4, .discarded 4, .entered 5, .closed,
        .handed 5, .missed] ∧ (s.place false).state.answers = [(.pull, .element 3)] ∧
            (s.place true).state.answers = [(.push 3, .ok), (.push 4, .ok), (.push 5, .ok),
              (.close, .ok), (.pull, .element 5), (.tryPull, .channelClosed)] ∧
                Lawful 1 false s := by
  have h₀ : Monitor.Reached ringMt.threads
      (start (fun _ ↦ none) 1 : Monitor Bool _ (Channel ℕ) _) _ := .start
  have h₁ := h₀.enters (t := false) rfl rfl ⟨_, .pull none, rfl⟩ ⟨_, .pull _, rfl⟩ rfl
  have h₂ := h₁.enters (t := true) rfl rfl ⟨_, .push none 3, rfl⟩ ⟨_, .push _ 3, rfl⟩
    (Or.inl ⟨false, _, rfl, rfl⟩)
  have h₃ := (h₂.resumes (t := false) rfl rfl ⟨_, .pull _, rfl⟩ rfl).step
    (.atomic (t := false) rfl ⟨_, .pulled _ _, rfl⟩)
  have h₄ := h₃.enters (t := true) rfl rfl ⟨_, .push _ 4, rfl⟩ ⟨_, .push _ 4, rfl⟩
    (wakes_one_of_none ⟨rfl, rfl⟩)
  have h₅ := h₄.enters (t := true) rfl rfl ⟨_, .push _ 5, rfl⟩ ⟨_, .push _ 5, rfl⟩
    (wakes_one_of_none ⟨rfl, rfl⟩)
  have h₆ := h₅.enters (t := true) rfl rfl ⟨_, .close _, rfl⟩ ⟨_, .close _, rfl⟩ rfl
  have h₇ := (h₆.enters (t := true) rfl rfl ⟨_, .pull _, rfl⟩ ⟨_, .pull _, rfl⟩ rfl).step
    (.atomic (t := true) rfl ⟨_, .pulled _ _, rfl⟩)
  have h₈ := (h₇.enters (t := true) rfl rfl ⟨_, .tryPull _, rfl⟩ ⟨_, .tryPull _, rfl⟩ rfl).step
    (.atomic (t := true) rfl ⟨_, .tryPulled _ _, rfl⟩)
  exact ⟨_, rfl, rfl, rfl, (ring_channel_sound Nat.one_pos h₈).1⟩

end Channel

end ZenohPico.Collections
