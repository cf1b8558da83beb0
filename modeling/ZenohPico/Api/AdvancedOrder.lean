import ZenohPico.Api.AdvancedSources

/-!
What an advanced subscriber delivers of a source, and the missed samples that it reports.

A sample is delivered in six places, and in each of them only if it is the first one of its source,
the next one, or one ahead of the next one whose distance is reported just before. `Emits` is this
rule, kept by every function of a source, and by every run (`run_deliveryOrdered`). Samples with
timestamps are delivered when they are newer than the last one.
-/

open List

namespace ZenohPico.Api

open Collections

section Outputs

variable {α : Type}

/-- The sequence numbers that were delivered, in their order -/
def deliveredNumbers : List (Output α) → List UInt32
  | [] => []
  | .delivered sn _ :: outs => sn :: deliveredNumbers outs
  | .missed _ :: outs => deliveredNumbers outs

/-- Between two numbers `a` and `b` that are delivered one after the other, the listeners are told
`b - a - 1` missed samples in total. The last number delivered so far is `last`, and `told` samples
were reported since. -/
def GapsTold : Option UInt32 → ℕ → List (Output α) → Prop
  | _, _, [] => True
  | last, told, .missed nb :: outs => GapsTold last (told + nb.toNat) outs
  | last, told, .delivered sn _ :: outs =>
    (∀ a ∈ last, told = (sn - a - 1).toNat) ∧ GapsTold (some sn) 0 outs

/-- The outputs of a source whose last delivered number is the first one before and the second one
after them -/
inductive Emits : Option UInt32 → List (Output α) → Option UInt32 → Prop
  | nil {last : Option UInt32} : Emits last [] last
  | first {sn : UInt32} {sample : α} {outs : List (Output α)} {last : Option UInt32}
      (h : Emits (some sn) outs last) : Emits none (.delivered sn sample :: outs) last
  | later {a sn : UInt32} {sample : α} {outs : List (Output α)} {last : Option UInt32}
      (hdiff : 0 ≤ seqnumberDiff sn (seqnumberNext a)) (h : Emits (some sn) outs last) :
      Emits (some a)
        (report (seqnumberDiff sn (seqnumberNext a)) ++ .delivered sn sample :: outs) last

variable {after last : Option UInt32}

theorem Emits.append {before : Option UInt32} {outs more : List (Output α)}
    (h : Emits before outs last) (hmore : Emits last more after) :
    Emits before (outs ++ more) after := by
  induction h with
  | nil => exact hmore
  | first _ ih => exact .first (ih hmore)
  | later hdiff _ ih =>
    rw [append_assoc, cons_append]
    exact .later hdiff (ih hmore)

theorem seqnumberDiff_self (a : UInt32) : seqnumberDiff a a = 0 := by
  simp [seqnumberDiff_eq_bmod]

/-- The next number is delivered without a report. -/
theorem Emits.next {a : UInt32} {sample : α} {outs : List (Output α)}
    (h : Emits (some (seqnumberNext a)) outs last) :
    Emits (some a) (.delivered (seqnumberNext a) sample :: outs) last := by
  have hzero := seqnumberDiff_self (seqnumberNext a)
  have hlater : Emits (some a) (report (seqnumberDiff (seqnumberNext a) (seqnumberNext a)) ++
      .delivered (seqnumberNext a) sample :: outs) last := .later (le_of_eq hzero.symm) h
  rwa [hzero] at hlater

@[simp] theorem deliveredNumbers_report (diff : ℤ) (outs : List (Output α)) :
    deliveredNumbers (report diff ++ outs) = deliveredNumbers outs := by
  unfold report
  split_ifs <;> rfl

theorem deliveredNumbers_append (outs more : List (Output α)) :
    deliveredNumbers (outs ++ more) = deliveredNumbers outs ++ deliveredNumbers more := by
  induction outs with
  | nil => rfl
  | cons out outs ih =>
    cases out with
    | delivered sn sample => exact congrArg (sn :: ·) ih
    | missed nb => exact ih

/-! ### What the rule gives -/

/-- The number of a report is that of the samples that it is for. -/
theorem toNat_ofNat_seqnumberDiff {a b : UInt32} (h : 0 ≤ seqnumberDiff a (seqnumberNext b)) :
    (UInt32.ofNat (seqnumberDiff a (seqnumberNext b)).toNat).toNat = (a - b - 1).toNat := by
  have hsub : a - b - 1 = a - seqnumberNext b := by
    rw [seqnumberNext_eq]
    grind
  have hnat : (seqnumberDiff a (seqnumberNext b)).toNat = (a - seqnumberNext b).toNat := by
    have := toNat_sub_of_seqnumberDiff h
    omega
  rw [hsub, hnat, UInt32.ofNat_toNat]

theorem Emits.gapsTold {outs : List (Output α)} (h : Emits last outs after) :
    GapsTold last 0 outs := by
  induction h with
  | nil => trivial
  | first _ ih => exact ⟨nofun, ih⟩
  | @later a sn sample outs _ hdiff _ ih =>
    have hcount := toNat_ofNat_seqnumberDiff hdiff
    unfold report
    split_ifs with hpos
    · refine ⟨fun b hb ↦ ?_, ih⟩
      cases hb
      rw [Nat.zero_add, hcount]
    · refine ⟨fun b hb ↦ ?_, ih⟩
      cases hb
      have hzero : seqnumberDiff sn (seqnumberNext a) = 0 := by omega
      rw [← hcount, hzero]
      rfl

/-- Within half the range, what is delivered is in the serial order, and after what was. -/
theorem Emits.increasing {base : UInt32} {outs : List (Output α)} (h : Emits last outs after)
    (hlast : ∀ a ∈ last, InWindow base a) (hwindow : ∀ n ∈ deliveredNumbers outs, InWindow base n) :
    (deliveredNumbers outs).Pairwise SerialLt ∧
      ∀ a ∈ last, ∀ n ∈ deliveredNumbers outs, SerialLt a n := by
  induction h with
  | nil => exact ⟨.nil, fun _ _ _ ↦ nofun⟩
  | @first sn sample outs _ _ ih =>
    have hsn : InWindow base sn := hwindow sn (.head _)
    obtain ⟨hpairwise, hafter⟩ := ih (by simpa using hsn) fun n hn ↦ hwindow n (.tail _ hn)
    exact ⟨.cons (hafter sn rfl) hpairwise, nofun⟩
  | @later a sn sample outs _ hdiff _ ih =>
    rw [deliveredNumbers_report] at hwindow ⊢
    have ha : InWindow base a := hlast a rfl
    have hsn : InWindow base sn := hwindow sn (.head _)
    obtain ⟨hpairwise, hafter⟩ := ih (by simpa using hsn) fun n hn ↦ hwindow n (.tail _ hn)
    have hlt : rank base a < rank base sn := by
      rw [seqnumberDiff_next_eq_rank hsn ha] at hdiff
      omega
    refine ⟨.cons (hafter sn rfl) hpairwise, fun b hb n hn ↦ ?_⟩
    cases hb
    rcases mem_cons.mp hn with rfl | hn
    · exact (serialLt_iff_rank ha hsn).mpr hlt
    · have hn' : InWindow base n := hwindow n (.tail _ hn)
      have hnext := (serialLt_iff_rank hsn hn').mp (hafter sn rfl n hn)
      exact (serialLt_iff_rank ha hn').mpr (hlt.trans hnext)

end Outputs

/-! ### The functions of a source -/

namespace SequencedState

variable {α : Type} {state : SequencedState α}

theorem drain_emits (passes : ℕ) (m : SortedMap UInt32 α) (last : UInt32) :
    Emits (some last) (drain passes m last).2.2 (some (drain passes m last).1) := by
  induction passes generalizing m last with
  | zero => exact .nil
  | succ passes ih =>
    unfold drain
    split
    · exact .nil
    · exact .next (ih _ _)

/-- The first sample of a source, and the next one, can be delivered with those that follow. -/
theorem deliverAndFlush_emits {sn : UInt32} (sample : α)
    (h : ∀ last ∈ state.lastDelivered, sn = seqnumberNext last) :
    Emits state.lastDelivered (state.deliverAndFlush sn sample).2
      (state.deliverAndFlush sn sample).1.lastDelivered := by
  have hdrain := drain_emits state.pendingSamples.length state.pendingSamples sn
  unfold deliverAndFlush
  cases hlast : state.lastDelivered with
  | none => exact .first hdrain
  | some last =>
    rw [h last hlast] at hdrain ⊢
    exact .next hdrain

theorem flushEntries_emits (last : Option UInt32) (entries : List (UInt32 × α)) :
    Emits last (flushEntries last entries).2 (flushEntries last entries).1 := by
  induction entries generalizing last with
  | nil =>
    unfold flushEntries
    exact .nil
  | cons entry entries ih =>
    obtain ⟨sn, sample⟩ := entry
    cases last with
    | none => exact .first (ih _)
    | some last =>
      unfold flushEntries
      simp only
      split_ifs with hdiff
      · exact .later hdiff (ih _)
      · exact ih _

theorem flush_emits (state : SequencedState α) :
    Emits state.lastDelivered state.flush.2 state.flush.1.lastDelivered := by
  unfold flush
  split_ifs
  · exact .nil
  · exact flushEntries_emits _ _

theorem handleSample_emits (opts : DeliveryOptions) (globalPendingQueries : UInt64)
    (memory : Memory) (state : SequencedState α) (sn : UInt32) (sample : α) :
    Emits state.lastDelivered
      (state.handleSample opts globalPendingQueries memory sn sample).1.2
      (state.handleSample opts globalPendingQueries memory sn sample).1.1.lastDelivered := by
  unfold handleSample
  cases hlast : state.lastDelivered with
  | none =>
    have hfirst {s : SequencedState α} (hs : s.lastDelivered = none) (n : UInt32) (v : α) :
        Emits none (s.deliverAndFlush n v).2 (s.deliverAndFlush n v).1.lastDelivered :=
      hs ▸ deliverAndFlush_emits v (by simp [hs])
    simp only
    split_ifs
    · exact .first .nil
    · split
      · exact hlast ▸ .nil
      · next rest _ => exact hfirst (s := ⟨none, _, rest⟩) rfl _ _
    · exact hlast ▸ .nil
    · exact hfirst hlast _ _
  | some last =>
    simp only
    split_ifs with hnext hdiff
    · exact hlast ▸ deliverAndFlush_emits sample (by simpa [hlast] using hnext)
    · exact hlast ▸ .nil
    · exact .later hdiff.le .nil
    · exact hlast ▸ .nil

end SequencedState

theorem SourceStep.emits {α : Type} {opts : DeliveryOptions} {globalPendingQueries : UInt64}
    {e : SourceEvent α} {s s' : Option (SequencedState α)} {outs : List (Output α)}
    (h : SourceStep opts globalPendingQueries e s outs s') :
    Emits (s.bind SequencedState.lastDelivered) outs (s'.bind SequencedState.lastDelivered) := by
  cases h with
  | same | counted | made | notMade | flushNone => exact .nil
  | @flush state own => exact SequencedState.flush_emits (state.atEnd own)
  | @sample s sn memory content _ _ _ hr =>
    subst hr
    have hemits := SequencedState.handleSample_emits opts globalPendingQueries memory
      (s.getD .init) sn content
    cases s with
    | none => exact hemits
    | some state => exact hemits

/-! ### Sources with timestamps -/

section Timestamps

variable {Source Zid α : Type} [LinearOrder Zid]

/-- The samples of a source whose last delivered timestamp is the first one before and the second
one after them -/
inductive Later : Option (Timestamp Zid) → List (Timestamp Zid × α) → Option (Timestamp Zid) → Prop
  | nil {last : Option (Timestamp Zid)} : Later last [] last
  | cons {last after : Option (Timestamp Zid)} {timestamp : Timestamp Zid} {sample : α}
      {outs : List (Timestamp Zid × α)} (hlast : last.all (· < timestamp) = true)
      (h : Later (some timestamp) outs after) : Later last ((timestamp, sample) :: outs) after

theorem Later.append {before after last : Option (Timestamp Zid)}
    {outs more : List (Timestamp Zid × α)} (h : Later before outs last)
    (hmore : Later last more after) : Later before (outs ++ more) after := by
  induction h with
  | nil => exact hmore
  | cons hlast _ ih => exact .cons hlast (ih hmore)

theorem Later.increasing {last after : Option (Timestamp Zid)} {outs : List (Timestamp Zid × α)}
    (h : Later last outs after) :
    (outs.map Prod.fst).Pairwise (· < ·) ∧ ∀ a ∈ last, ∀ t ∈ outs.map Prod.fst, a < t := by
  induction h with
  | nil => exact ⟨.nil, fun _ _ _ ↦ nofun⟩
  | @cons last _ timestamp sample outs hlast _ ih =>
    obtain ⟨hpairwise, hafter⟩ := ih
    refine ⟨.cons (hafter timestamp rfl) hpairwise, fun a ha t ht ↦ ?_⟩
    have hlt : a < timestamp := by
      cases ha
      simpa using hlast
    rcases mem_cons.mp ht with rfl | ht
    · exact hlt
    · exact hlt.trans (hafter timestamp rfl t ht)

namespace TimestampedState

theorem flushEntries_later (last : Option (Timestamp Zid)) (entries : List (Timestamp Zid × α)) :
    Later last (flushEntries last entries).2 (flushEntries last entries).1 := by
  induction entries generalizing last with
  | nil =>
    unfold flushEntries
    exact .nil
  | cons entry entries ih =>
    obtain ⟨timestamp, sample⟩ := entry
    unfold flushEntries
    split_ifs with hlast
    · exact .cons hlast (ih _)
    · exact ih _

theorem flush_later {last : Option (Timestamp Zid)} (state : TimestampedState Zid α)
    (hlast : state.lastDelivered = last) :
    Later last state.flush.2 state.flush.1.lastDelivered := by
  subst hlast
  unfold flush
  split_ifs
  · exact flushEntries_later _ _
  · exact .nil

theorem handleSample_later (opts : DeliveryOptions) (globalPendingQueries : UInt64)
    (memory : Memory) (state : TimestampedState Zid α) (timestamp : Timestamp Zid) (sample : α) :
    Later state.lastDelivered
      (state.handleSample opts globalPendingQueries memory timestamp sample).1.2
      (state.handleSample opts globalPendingQueries memory timestamp sample).1.1.lastDelivered := by
  unfold handleSample
  simp only
  split_ifs with hlast
  · exact .cons hlast .nil
  · exact flush_later _ rfl
  · exact .nil
  · exact .nil

theorem queryDropped_later (globalPendingQueries : UInt64) (state : TimestampedState Zid α) :
    Later state.lastDelivered (state.queryDropped globalPendingQueries).2
      (state.queryDropped globalPendingQueries).1.lastDelivered := by
  unfold queryDropped
  simp only
  split_ifs
  · exact flush_later _ rfl
  · exact .nil

end TimestampedState

namespace AdvancedSubscriber

variable [DecidableEq Source] (w : AdvancedSubscriber Source Zid α)

/-- The last delivered timestamp of a source -/
def lastTimestamp (id : Zid) : Option (Timestamp Zid) :=
  (w.timestampedStates id).bind TimestampedState.lastDelivered

/-- From `w` to `w'`, newer samples of the sources with timestamps are delivered. -/
def TimesAdvance (w' : AdvancedSubscriber Source Zid α) : Prop :=
  ∀ id, ∃ outs, w'.seenTimestamped id = w.seenTimestamped id ++ outs ∧
    Later (w.lastTimestamp id) outs (w'.lastTimestamp id)

variable {w}

variable {w' : AdvancedSubscriber Source Zid α}

omit [DecidableEq Source] in
theorem TimesAdvance.of_eq (hseen : w'.seenTimestamped = w.seenTimestamped)
    (hstates : w'.timestampedStates = w.timestampedStates) : w.TimesAdvance w' := by
  intro id
  refine ⟨[], by rw [hseen, append_nil], ?_⟩
  unfold lastTimestamp
  rw [hstates]
  exact .nil

omit [DecidableEq Source] in
theorem TimesAdvance.congr {w'' : AdvancedSubscriber Source Zid α} (h : w.TimesAdvance w')
    (hseen : w''.seenTimestamped = w'.seenTimestamped)
    (hstates : w''.timestampedStates = w'.timestampedStates) : w.TimesAdvance w'' := by
  intro id
  obtain ⟨outs, hout, hlater⟩ := h id
  unfold lastTimestamp at hlater ⊢
  exact ⟨outs, by rw [hseen, hout], hstates ▸ hlater⟩

omit [DecidableEq Source] in
theorem timesAdvance_put {id : Zid} {r : TimestampedState Zid α × List (Timestamp Zid × α)}
    (h : Later (w.lastTimestamp id) r.2 r.1.lastDelivered) : w.TimesAdvance (w.putTimestamped id r) := by
  intro other
  unfold lastTimestamp at h ⊢
  by_cases hid : other = id
  · subst hid
    exact ⟨r.2, by simp [putTimestamped], by simpa [putTimestamped] using h⟩
  · exact ⟨[], by simp [putTimestamped, hid], by simpa [putTimestamped, hid] using .nil⟩

omit [DecidableEq Source] in
theorem lastDelivered_timestampedState {id : Zid} {memory : Memory} {state : TimestampedState Zid α}
    (h : w.timestampedState id memory = some state) : w.lastTimestamp id = state.lastDelivered := by
  unfold timestampedState at h
  unfold lastTimestamp
  cases hstate : w.timestampedStates id with
  | some found =>
    rw [hstate] at h
    cases h
    rfl
  | none =>
    rw [hstate] at h
    simp only at h
    split_ifs at h
    cases h
    rfl

theorem handleSample_timesAdvance (sample : Sample Source Zid α) (memory : Memory) :
    w.TimesAdvance (w.handleSample sample memory).1 := by
  unfold handleSample
  split
  · split <;> exact .of_eq rfl rfl
  · next timestamp _ _ =>
    split
    · exact .of_eq rfl rfl
    · next state hstate =>
      refine timesAdvance_put ?_
      rw [lastDelivered_timestampedState hstate]
      exact TimestampedState.handleSample_later _ _ _ _ _ _
  · exact .of_eq rfl rfl

theorem live_timesAdvance (sample : Sample Source Zid α) (memory : Memory) :
    w.TimesAdvance (w.live sample memory) := by
  have hsample := handleSample_timesAdvance (w := w) sample memory
  unfold live
  simp only
  split
  · split
    · exact hsample
    · split_ifs
      · exact hsample.congr rfl rfl
      · exact hsample
  · exact hsample

theorem heartbeat_timesAdvance (source : Source) (sn : UInt32) (memory : Memory) :
    w.TimesAdvance (w.heartbeat source sn memory) := by
  unfold heartbeat
  split_ifs
  · exact .of_eq rfl rfl
  · split
    · exact .of_eq rfl rfl
    · split_ifs <;> exact .of_eq rfl rfl

theorem periodic_timesAdvance (source : Source) : w.TimesAdvance (w.periodic source) := by
  unfold periodic
  split_ifs
  · exact .of_eq rfl rfl
  · split
    · exact .of_eq rfl rfl
    · split_ifs <;> exact .of_eq rfl rfl

theorem queryDropHandler_timesAdvance (kind : QueryKind Source Zid) :
    w.TimesAdvance (w.queryDropHandler kind) := by
  cases kind with
  | initial =>
    simp only [queryDropHandler, initialQueryDropped]
    split_ifs
    · intro id
      unfold lastTimestamp
      cases hstate : w.timestampedStates id with
      | none => exact ⟨[], by simp [hstate], by simpa [hstate] using .nil⟩
      | some state =>
        exact ⟨state.flush.2, by simp [hstate],
          by simpa [hstate] using TimestampedState.flush_later state rfl⟩
    · exact .of_eq rfl rfl
  | sequenced source =>
    simp only [queryDropHandler]
    split <;> exact .of_eq rfl rfl
  | timestamped zid =>
    simp only [queryDropHandler]
    split
    · exact .of_eq rfl rfl
    · next state hstate =>
      refine timesAdvance_put ?_
      unfold lastTimestamp
      rw [hstate]
      exact TimestampedState.queryDropped_later _ _

theorem settle_timesAdvance (kind : QueryKind Source Zid)
    (hafter : (w.settle kind).isUndeclaring = false) : w.TimesAdvance (w.settle kind) := by
  cases kind with
  | initial =>
    simp only [settle, undeclare] at hafter ⊢
    split_ifs at hafter ⊢
    exact .of_eq rfl rfl
  | sequenced source =>
    simp only [settle]
    split <;> exact .of_eq rfl rfl
  | timestamped zid =>
    simp only [settle]
    split
    · exact .of_eq rfl rfl
    · next state hstate =>
      refine timesAdvance_put ?_
      unfold lastTimestamp
      rw [hstate]
      exact .nil

/-- What an event can do to the sources with timestamps, as long as the subscriber is not
undeclared -/
theorem step_timesAdvance (e : AdvancedEvent Source Zid α)
    (hafter : (w.step e).isUndeclaring = false) : w.TimesAdvance (w.step e) := by
  cases e with
  | live sample memory =>
    simp only [step]
    split_ifs
    · exact .of_eq rfl rfl
    · exact live_timesAdvance sample memory
  | reply sample memory =>
    simp only [step]
    split_ifs
    · exact .of_eq rfl rfl
    · exact handleSample_timesAdvance sample memory
  | heartbeat source sn memory =>
    simp only [step]
    split_ifs
    · exact .of_eq rfl rfl
    · exact heartbeat_timesAdvance source sn memory
  | publisher source memory =>
    simp only [step, publisher]
    split_ifs
    · exact .of_eq rfl rfl
    · split <;> exact .of_eq rfl rfl
  | publisherUhlc zid memory =>
    simp only [step, publisherUhlc]
    split_ifs
    · exact .of_eq rfl rfl
    · split
      · exact .of_eq rfl rfl
      · next state hstate =>
        refine TimesAdvance.congr (timesAdvance_put (r := ({ state with pendingQueries := _ }, []))
          ?_) rfl rfl
        rw [lastDelivered_timestampedState hstate]
        exact .nil
  | periodic source =>
    simp only [step]
    split_ifs
    · exact .of_eq rfl rfl
    · exact periodic_timesAdvance source
  | refuse | call | returnedDropped =>
    simp only [step]
    split_ifs <;> exact .of_eq rfl rfl
  | returned kind exit =>
    simp only [step]
    split_ifs
    · exact .of_eq rfl rfl
    · exact (queryDropHandler_timesAdvance kind).congr rfl rfl
    · exact (queryDropHandler_timesAdvance kind).congr rfl rfl
    · exact .of_eq rfl rfl
  | drop kind calling =>
    simp only [step]
    split_ifs
    · exact (queryDropHandler_timesAdvance kind).congr rfl rfl
    · exact .of_eq rfl rfl
    · exact (queryDropHandler_timesAdvance kind).congr rfl rfl
    · exact .of_eq rfl rfl
  | settle kind failed =>
    simp only [step] at hafter ⊢
    by_cases hmem : (kind, if failed then QueryStage.failed else .refused) ∈ w.queries
    · rw [if_pos hmem] at hafter ⊢
      cases hundeclaring : w.isUndeclaring
      · rw [hundeclaring] at hafter
        exact (settle_timesAdvance kind hafter).congr rfl rfl
      · exact .of_eq rfl rfl
    · rw [if_neg hmem]
      exact .of_eq rfl rfl
  | undeclare =>
    simp only [step, undeclare] at hafter ⊢
    split_ifs at hafter ⊢
    exact .of_eq rfl rfl

/-! ### Runs -/

variable (w) in
/-- What a subscriber delivers is in order, and the missed samples in between are told. -/
structure DeliveryOrdered : Prop where
  increasing : ∀ id base, (∀ n ∈ deliveredNumbers (w.seen id), InWindow base n) →
    (deliveredNumbers (w.seen id)).Pairwise SerialLt
  gaps : ∀ id, GapsTold none 0 (w.seen id)
  timestamps : ∀ id, ((w.seenTimestamped id).map Prod.fst).Pairwise (· < ·)

variable (historyEnabled : Bool) (maxSamples : ℕ) (retransmission : Bool)
  (events : List (AdvancedEvent Source Zid α))

theorem run_emits (id : Source) :
    ∃ last, Emits none (((init historyEnabled maxSamples retransmission).run events).seen id) last := by
  obtain ⟨s, hs⟩ := run_source (P := fun s told ↦ Emits none told (s.bind (·.lastDelivered))) .nil
    (fun hstep htold ↦ htold.append hstep.emits) historyEnabled maxSamples retransmission events id
  exact ⟨_, hs⟩

theorem run_later (id : Zid) : ∃ last, Later none
      (((init historyEnabled maxSamples retransmission).run events).seenTimestamped id) last := by
  refine run_kept (I := fun w ↦ Later none (w.seenTimestamped id) (w.lastTimestamp id))
    (P := fun w ↦ ∃ last, Later none (w.seenTimestamped id) last) (fun w h ↦ ⟨_, h⟩)
    (fun w e hafter hlive ↦ ?_)
    (fun w e hcleared hafter hkept ↦ (step_silent hcleared e hafter).seenTimestamped ▸ hkept) events
    (init_cleared _ _ _) .nil
  obtain ⟨outs, hout, hlater⟩ := step_timesAdvance e hafter id
  rw [hout]
  exact hlive.append hlater

/-- In every run the samples of a source are delivered in the order of their numbers, or of their
timestamps, and the listeners are told what is missing between two of them. -/
theorem run_deliveryOrdered :
    ((init historyEnabled maxSamples retransmission).run events).DeliveryOrdered where
  increasing id base hwindow := by
    obtain ⟨last, hemits⟩ := run_emits historyEnabled maxSamples retransmission events id
    exact (hemits.increasing nofun hwindow).1
  gaps id := by
    obtain ⟨last, hemits⟩ := run_emits historyEnabled maxSamples retransmission events id
    exact hemits.gapsTold
  timestamps id := by
    obtain ⟨last, hlater⟩ := run_later historyEnabled maxSamples retransmission events id
    exact hlater.increasing.1

end AdvancedSubscriber

end Timestamps

end ZenohPico.Api
