import ZenohPico.Api.AdvancedOrder

/-!
What becomes of the samples that an advanced subscriber receives ahead of those it has delivered.

A parked sample is lost in two ways: a sample that lies behind it is delivered first, because the
parked ones are not looked at, or because they are taken in the order of the integers, which is not
the serial one around the wrap. In the runs in which this does not happen every such sample is
delivered or parked, and none of them is reported as missed (`Reached.samples_kept`).
-/

open List Option

namespace ZenohPico.Api

open Collections

variable {n sn : UInt32} {last : Option UInt32}

section Outputs

variable {α : Type}

/-- The number is among those that were reported as missed: it lies between two numbers that were
delivered one after the other. The last number delivered so far is `last`. -/
def Counted (n : UInt32) : Option UInt32 → List (Output α) → Prop
  | _, [] => False
  | last, .missed _ :: outs => Counted n last outs
  | last, .delivered sn _ :: outs =>
    (∃ a ∈ last, SerialLt a n ∧ SerialLt n sn) ∨ Counted n (some sn) outs

/-- The number is ahead of the last delivered one. -/
def Ahead (last : Option UInt32) (n : UInt32) : Prop := ∀ a ∈ last, SerialLt a n

variable {a : UInt32}

theorem serialLt_trans {base b c : UInt32} (ha : InWindow base a) (hb : InWindow base b)
    (hc : InWindow base c) (hab : SerialLt a b) (hbc : SerialLt b c) : SerialLt a c := by
  rw [serialLt_iff_rank ha hb] at hab
  rw [serialLt_iff_rank hb hc] at hbc
  exact (serialLt_iff_rank ha hc).mpr (hab.trans hbc)

/-- Of two numbers that are not the same, one is before the other. -/
theorem serialLt_of_not {base b : UInt32} (ha : InWindow base a) (hb : InWindow base b)
    (hne : a ≠ b) (h : ¬SerialLt b a) : SerialLt a b := by
  rw [serialLt_iff_rank hb ha] at h
  have : rank base a ≠ rank base b := fun heq ↦ hne (rank_injective heq)
  exact (serialLt_iff_rank ha hb).mpr (by omega)

theorem serialLt_next {base : UInt32} (ha : InWindow base a) (hn : InWindow base n)
    (h : SerialLt a n) : n = seqnumberNext a ∨
      InWindow base (seqnumberNext a) ∧ SerialLt (seqnumberNext a) n := by
  rw [serialLt_iff_rank ha hn] at h
  have hrank := rank_seqnumberNext ha
  by_cases heq : rank base n = rank base a + 1
  · exact .inl (rank_injective (heq.trans hrank.symm))
  · have hnext : InWindow base (seqnumberNext a) := by
      unfold InWindow at *
      omega
    exact .inr ⟨hnext, (serialLt_iff_rank hnext hn).mpr (by omega)⟩

variable {after : Option UInt32}

/-- The last number is the one before, or it was delivered. -/
theorem Emits.last_mem {outs : List (Output α)} (h : Emits last outs after) :
    after = last ∨ ∃ b ∈ deliveredNumbers outs, after = some b := by
  induction h with
  | nil => exact .inl rfl
  | first _ ih =>
    rcases ih with rfl | ⟨b, hb, rfl⟩
    · exact .inr ⟨_, .head _, rfl⟩
    · exact .inr ⟨b, .tail _ hb, rfl⟩
  | later _ _ ih =>
    rw [deliveredNumbers_report]
    rcases ih with rfl | ⟨b, hb, rfl⟩
    · exact .inr ⟨_, .head _, rfl⟩
    · exact .inr ⟨b, .tail _ hb, rfl⟩

/-- The number is not among those that are reported after `last`: it was delivered, it is not ahead
of `last`, or it is ahead of all that was delivered. -/
def Uncounted (n : UInt32) (last : Option UInt32) (outs : List (Output α)) (after : Option UInt32) :
    Prop :=
  n ∈ deliveredNumbers outs ∨ (∃ a ∈ last, ¬SerialLt a n) ∨ Ahead after n

theorem Emits.not_counted {base : UInt32} {outs : List (Output α)} (h : Emits last outs after)
    (hn : InWindow base n) (hlast : ∀ a ∈ last, InWindow base a)
    (hwindow : ∀ m ∈ deliveredNumbers outs, InWindow base m) (hkept : Uncounted n last outs after) :
    ¬Counted n last outs := by
  have hirrefl : ¬SerialLt n n := by simp [SerialLt, seqnumberDiff_self]
  induction h with
  | nil => exact id
  | @first sn sample outs after hrest ih =>
    have hsn : InWindow base sn := hwindow sn (.head _)
    rintro (⟨a, ha, -⟩ | hcounted)
    · exact nomatch ha
    · refine ih (by simpa using hsn) (fun m hm ↦ hwindow m (.tail _ hm)) ?_ hcounted
      rcases hkept with hmem | ⟨a, ha, -⟩ | hahead
      · rcases mem_cons.mp hmem with rfl | hmem
        · exact .inr (.inl ⟨n, rfl, hirrefl⟩)
        · exact .inl hmem
      · exact nomatch ha
      · exact .inr (.inr hahead)
  | @later a sn sample outs after hdiff hrest ih =>
    unfold Uncounted at hkept
    rw [deliveredNumbers_report] at hwindow hkept
    have ha : InWindow base a := hlast a rfl
    have hsn : InWindow base sn := hwindow sn (.head _)
    have hrestWindow : ∀ m ∈ deliveredNumbers outs, InWindow base m :=
      fun m hm ↦ hwindow m (.tail _ hm)
    have hsnWindow : ∀ b ∈ some sn, InWindow base b := by simpa using hsn
    have hafter := (hrest.increasing hsnWindow hrestWindow).2 sn rfl
    have hasn : SerialLt a sn := by
      rw [seqnumberDiff_next_eq_rank hsn ha] at hdiff
      exact (serialLt_iff_rank ha hsn).mpr (by omega)
    have hnext : Uncounted n (some sn) outs after := by
      rcases hkept with hmem | ⟨b, hb, hnot⟩ | hahead
      · rcases mem_cons.mp hmem with rfl | hmem
        · exact .inr (.inl ⟨n, rfl, hirrefl⟩)
        · exact .inl hmem
      · cases hb
        exact .inr (.inl ⟨sn, rfl, fun hlt ↦ hnot (serialLt_trans ha hsn hn hasn hlt)⟩)
      · exact .inr (.inr hahead)
    have hbetween : ¬(SerialLt a n ∧ SerialLt n sn) := by
      rintro ⟨han, hnsn⟩
      rcases hkept with hmem | ⟨b, hb, hnot⟩ | hahead
      · rcases mem_cons.mp hmem with rfl | hmem
        · exact hirrefl hnsn
        · exact hirrefl (serialLt_trans hn hsn hn hnsn (hafter n hmem))
      · cases hb
        exact hnot han
      · rcases hrest.last_mem with rfl | ⟨b, hb, rfl⟩
        · exact hirrefl (serialLt_trans hn hsn hn hnsn (hahead sn rfl))
        · have hsnn := serialLt_trans hsn (hrestWindow b hb) hn (hafter b hb) (hahead b rfl)
          exact hirrefl (serialLt_trans hn hsn hn hnsn hsnn)
    have hcounted : ¬((∃ b ∈ some a, SerialLt b n ∧ SerialLt n sn) ∨ Counted n (some sn) outs) := by
      rintro (⟨b, hb, hlt⟩ | hcounted)
      · cases hb
        exact hbetween hlt
      · exact ih hsnWindow hrestWindow hnext hcounted
    unfold report
    split_ifs <;> exact hcounted

end Outputs

namespace SequencedState

variable {α : Type} {base : UInt32} {state : SequencedState α}

/-- A number that is parked, and not before what was delivered -/
def Waits (state : SequencedState α) (n : UInt32) : Prop :=
  n ∈ state.pendingSamples.keys ∧ Ahead state.lastDelivered n

/-- Everything that is known of a source lies in one half of the range. -/
structure Within (base : UInt32) (state : SequencedState α) : Prop where
  keys : ∀ n ∈ state.pendingSamples.keys, InWindow base n
  last : ∀ a ∈ state.lastDelivered, InWindow base a

/-- In the loop of a delivery no sample that is ahead is lost. -/
theorem drain_keeps (passes : ℕ) (m : SortedMap UInt32 α) (last : UInt32)
    (hkeys : ∀ k ∈ m.keys, InWindow base k) (hlast : InWindow base last) (hn : n ∈ m.keys)
    (hlt : SerialLt last n) : n ∈ deliveredNumbers (drain passes m last).2.2 ∨
      n ∈ (drain passes m last).2.1.keys ∧ SerialLt (drain passes m last).1 n := by
  induction passes generalizing m last with
  | zero => exact .inr ⟨hn, hlt⟩
  | succ passes ih =>
    unfold drain
    split
    · exact .inr ⟨hn, hlt⟩
    · next sample hget =>
      rcases serialLt_next hlast (hkeys n hn) hlt with rfl | ⟨hnext, hlt⟩
      · exact .inl (.head _)
      · have hne : n ≠ seqnumberNext last := by
          rintro rfl
          simp [SerialLt, seqnumberDiff_self] at hlt
        rcases ih (m.erase (seqnumberNext last)) (seqnumberNext last)
          (fun k hk ↦ hkeys k (SortedMap.mem_keys_erase.mp hk).2) hnext
          (SortedMap.mem_keys_erase.mpr ⟨hne, hn⟩) hlt with hmem | hstays
        · exact .inl (.tail _ hmem)
        · exact .inr hstays

/-- The loop stays in the window, and takes samples from the map only. -/
theorem drain_within (passes : ℕ) (m : SortedMap UInt32 α) (last : UInt32)
    (hkeys : ∀ k ∈ m.keys, InWindow base k) (hlast : InWindow base last) :
    (∀ k ∈ (drain passes m last).2.1.keys, InWindow base k) ∧
      InWindow base (drain passes m last).1 ∧
      ∀ k ∈ deliveredNumbers (drain passes m last).2.2, InWindow base k := by
  induction passes generalizing m last with
  | zero => exact ⟨hkeys, hlast, nofun⟩
  | succ passes ih =>
    unfold drain
    split
    · exact ⟨hkeys, hlast, nofun⟩
    · next sample hget =>
      have hnext := hkeys _ (SortedMap.mem_keys_of_get? hget)
      obtain ⟨hk, hl, hd⟩ := ih (m.erase (seqnumberNext last)) (seqnumberNext last)
        (fun k hk ↦ hkeys k (SortedMap.mem_keys_erase.mp hk).2) hnext
      refine ⟨hk, hl, fun k hmem ↦ ?_⟩
      rcases mem_cons.mp hmem with rfl | hmem
      · exact hnext
      · exact hd k hmem

/-- Nothing that waits is lost from a state to the next one, and the window is not left. -/
structure Keeps (base : UInt32) (state : SequencedState α)
    (r : SequencedState α × List (Output α)) : Prop where
  within : r.1.Within base
  outs : ∀ n ∈ deliveredNumbers r.2, InWindow base n
  waits : ∀ n, state.Waits n → n ∈ deliveredNumbers r.2 ∨ r.1.Waits n

theorem Keeps.refl (h : state.Within base) : Keeps base state (state, []) where
  within := h
  outs := nofun
  waits _ hn := .inr hn

/-- A sample is delivered with those that follow, when no sample that waits is before it. -/
theorem deliverAndFlush_keeps (h : state.Within base) (sample : α) (hsn : InWindow base sn)
    (hbefore : ∀ n, state.Waits n → ¬SerialLt n sn) :
    Keeps base state (state.deliverAndFlush sn sample) := by
  obtain ⟨hk, hl, hd⟩ := drain_within state.pendingSamples.length state.pendingSamples sn h.keys hsn
  refine ⟨⟨hk, by simpa [deliverAndFlush] using hl⟩, fun n hn ↦ ?_, fun n hn ↦ ?_⟩
  · rcases mem_cons.mp hn with rfl | hn
    · exact hsn
    · exact hd n hn
  · by_cases heq : n = sn
    · exact .inl (heq ▸ .head _)
    · have hlt := serialLt_of_not hsn (h.keys n hn.1) (Ne.symm heq) (hbefore n hn)
      rcases drain_keeps state.pendingSamples.length state.pendingSamples sn h.keys hsn hn.1 hlt with
        hmem | ⟨hmem, hstays⟩
      · exact .inl (.tail _ hmem)
      · exact .inr ⟨hmem, by simpa [deliverAndFlush, Ahead] using hstays⟩

theorem mem_deliverAndFlush (sn : UInt32) (sample : α) :
    sn ∈ deliveredNumbers (state.deliverAndFlush sn sample).2 := .head _

/-- A sample is delivered and no parked one is looked at, when none that waits is before it. -/
theorem deliver_keeps (h : state.Within base) {outs : List (Output α)}
    (houts : deliveredNumbers outs = [sn]) (hsn : InWindow base sn)
    (hbefore : ∀ n, state.Waits n → ¬SerialLt n sn) :
    Keeps base state ({ state with lastDelivered := some sn }, outs) := by
  refine ⟨⟨h.keys, by simpa using hsn⟩, ?_, fun n hn ↦ ?_⟩
  · rw [houts]
    simpa using hsn
  · by_cases heq : n = sn
    · exact .inl (by simp [houts, heq])
    · refine .inr ⟨hn.1, ?_⟩
      simpa [Ahead] using
        serialLt_of_not hsn (h.keys n hn.1) (Ne.symm heq) (hbefore n hn)

/-- The parked samples that are ahead are in the serial order. -/
def SerialSorted (last : Option UInt32) (keys : List UInt32) : Prop :=
  keys.Pairwise fun a b ↦ Ahead last a → Ahead last b → SerialLt a b

theorem flushEntries_keeps {entries : List (UInt32 × α)} (hlast : ∀ a ∈ last, InWindow base a)
    (hkeys : ∀ n ∈ entries.map Prod.fst, InWindow base n)
    (hsorted : SerialSorted last (entries.map Prod.fst)) :
    (∀ a ∈ (flushEntries last entries).1, InWindow base a) ∧
      (∀ n ∈ deliveredNumbers (flushEntries last entries).2, InWindow base n) ∧
      ∀ n ∈ entries.map Prod.fst, Ahead last n →
        n ∈ deliveredNumbers (flushEntries last entries).2 := by
  induction entries generalizing last with
  | nil =>
    refine ⟨hlast, fun n hn ↦ ?_, fun n hn ↦ ?_⟩
    · cases hn
    · cases hn
  | cons entry entries ih =>
    obtain ⟨sn, sample⟩ := entry
    have hsn : InWindow base sn := hkeys sn (.head _)
    have hrest : ∀ n ∈ entries.map Prod.fst, InWindow base n := fun n hn ↦ hkeys n (.tail _ hn)
    have hsnWindow : ∀ a ∈ some sn, InWindow base a := by simpa using hsn
    rw [SerialSorted, map_cons, pairwise_cons] at hsorted
    obtain ⟨hfirst, htail⟩ := hsorted
    -- what is ahead of a number that was delivered was ahead before
    have hstep (hahead : Ahead last sn) :
        (∀ a ∈ (flushEntries (some sn) entries).1, InWindow base a) ∧
          (∀ n ∈ sn :: deliveredNumbers (flushEntries (some sn) entries).2, InWindow base n) ∧
          ∀ n ∈ sn :: entries.map Prod.fst, Ahead last n →
            n ∈ sn :: deliveredNumbers (flushEntries (some sn) entries).2 := by
      have hback : ∀ n ∈ entries.map Prod.fst, Ahead (some sn) n → Ahead last n :=
        fun n hn hsnn a ha ↦ serialLt_trans (hlast a ha) hsn (hrest n hn) (hahead a ha) (hsnn sn rfl)
      obtain ⟨hl, hd, hk⟩ := ih hsnWindow hrest (htail.imp_of_mem fun ha hb hab hsa hsb ↦
        hab (hback _ ha hsa) (hback _ hb hsb))
      refine ⟨hl, fun n hn ↦ ?_, fun n hn hnahead ↦ ?_⟩
      · rcases mem_cons.mp hn with rfl | hn
        · exact hsn
        · exact hd n hn
      · rcases mem_cons.mp hn with rfl | hn
        · exact .head _
        · refine .tail _ (hk n hn fun a ha ↦ ?_)
          cases ha
          exact hfirst n hn hahead hnahead
    cases last with
    | none => exact hstep fun a ha ↦ absurd ha (by simp)
    | some last =>
      have hl : InWindow base last := hlast last rfl
      unfold flushEntries
      simp only
      split_ifs with hdiff
      · have hlt : SerialLt last sn := by
          rw [seqnumberDiff_next_eq_rank hsn hl] at hdiff
          exact (serialLt_iff_rank hl hsn).mpr (by omega)
        rw [deliveredNumbers_report]
        exact hstep (by simpa [Ahead] using hlt)
      · obtain ⟨hl', hd, hk⟩ := ih hlast hrest htail
        refine ⟨hl', hd, fun n hn hnahead ↦ ?_⟩
        rcases mem_cons.mp hn with rfl | hn
        · have hlt := hnahead last rfl
          rw [serialLt_iff_rank hl hsn] at hlt
          rw [seqnumberDiff_next_eq_rank hsn hl] at hdiff
          omega
        · exact hk n hn hnahead

/-- A flush that takes place delivers all that waits, when the parked samples are sorted. -/
theorem flush_keeps (h : state.Within base)
    (hsorted : state.pendingQueries = 0 →
      SerialSorted state.lastDelivered state.pendingSamples.keys) :
    Keeps base state state.flush := by
  unfold flush
  split_ifs with hskips
  · exact .refl h
  · have hzero : state.pendingQueries = 0 := by
      by_contra hne
      exact hskips (.inl hne)
    obtain ⟨hl, hd, hk⟩ := flushEntries_keeps h.last h.keys (hsorted hzero)
    exact ⟨⟨nofun, hl⟩, hd, fun n hn ↦ .inl (hk n hn.1 hn.2)⟩

/-- The condition on a sample: the parked sample that is taken out for it is the first one, and where
it is delivered without a look at the parked ones, none that waits is before it. -/
def Spares (opts : DeliveryOptions) (globalPendingQueries : UInt64) (state : SequencedState α)
    (sn : UInt32) (sample : α) : Prop :=
  match state.lastDelivered with
  | none =>
    if globalPendingQueries ≠ 0 ∧ opts.historyDepth ≠ 1 then
      0 < opts.historyDepth → opts.historyDepth ≤ (state.pendingSamples.insert sn sample).length →
        ∀ first ∈ (state.pendingSamples.insert sn sample).keys.head?,
          ∀ n ∈ (state.pendingSamples.insert sn sample).keys, ¬SerialLt n first
    else ∀ n ∈ state.pendingSamples.keys, ¬SerialLt n sn
  | some last =>
    SerialLt last sn → opts.retransmission = false →
      ∀ n ∈ state.pendingSamples.keys, SerialLt last n → ¬SerialLt n sn

/-- A sample is kept, and what waits is kept as well. -/
structure KeepsSample (base : UInt32) (state : SequencedState α) (sn : UInt32)
    (r : SequencedState α × List (Output α)) : Prop extends Keeps base state r where
  arrives : Ahead state.lastDelivered sn → sn ∈ deliveredNumbers r.2 ∨ r.1.Waits sn

/-- A copy of the sample is parked. -/
theorem insert_keeps (h : state.Within base) (sample : α) (hsn : InWindow base sn) :
    KeepsSample base state sn
      ({ state with pendingSamples := state.pendingSamples.insert sn sample }, []) where
  within := by
    refine ⟨fun n hn ↦ ?_, h.last⟩
    rcases SortedMap.mem_keys_insert.mp hn with rfl | hn
    · exact hsn
    · exact h.keys n hn
  outs := nofun
  waits _ hn := .inr ⟨SortedMap.mem_keys_insert.mpr (.inr hn.1), hn.2⟩
  arrives hahead := .inr ⟨SortedMap.mem_keys_insert.mpr (.inl rfl), hahead⟩

/-- The first one of the parked samples is taken out and delivered. -/
theorem pop_keeps (h : state.Within base) {first : UInt32 × α} {rest : SortedMap UInt32 α}
    (hpop : state.pendingSamples.popFirst? = some (first, rest))
    (hfirst : ∀ n ∈ state.pendingSamples.keys, ¬SerialLt n first.1) : Keeps base state
      (deliverAndFlush { state with pendingSamples := rest } first.1 first.2) := by
  have hkeys := SortedMap.keys_of_popFirst? hpop
  have hwithin : Within base { state with pendingSamples := rest } :=
    ⟨fun n hn ↦ h.keys n (hkeys ▸ .tail _ hn), h.last⟩
  have hdeliver := deliverAndFlush_keeps hwithin first.2
    (h.keys first.1 (hkeys ▸ .head _)) fun n hn ↦ hfirst n (hkeys ▸ .tail _ hn.1)
  refine ⟨hdeliver.within, hdeliver.outs, fun n hn ↦ ?_⟩
  have hmem := hn.1
  rw [hkeys] at hmem
  rcases mem_cons.mp hmem with rfl | hrest
  · exact .inl (mem_deliverAndFlush _ _)
  · exact hdeliver.waits n ⟨hrest, hn.2⟩

theorem handleSample_keeps {opts : DeliveryOptions} {globalPendingQueries : UInt64}
    (h : state.Within base) {sample : α} (hsn : InWindow base sn)
    (hspares : state.Spares opts globalPendingQueries sn sample) : KeepsSample base state sn
      (state.handleSample opts globalPendingQueries .plenty sn sample).1 := by
  unfold Spares at hspares
  unfold handleSample
  cases hlast : state.lastDelivered with
  | none =>
    rw [hlast] at hspares
    simp only [park, true_and] at hspares ⊢
    have hinsert := insert_keeps h sample hsn
    by_cases hglobal : globalPendingQueries = 0
    · simp only [hglobal, ne_eq, not_true, false_and, if_false] at hspares ⊢
      exact ⟨deliverAndFlush_keeps h sample hsn fun n hn ↦ hspares n hn.1,
        fun _ ↦ .inl (mem_deliverAndFlush sn sample)⟩
    · by_cases hdepth : opts.historyDepth = 1
      · simp only [hglobal, hdepth, ne_eq, not_true, not_false_iff, and_false, if_false, if_true]
          at hspares ⊢
        exact ⟨deliver_keeps h rfl hsn fun n hn ↦ hspares n hn.1, fun _ ↦ .inl (.head _)⟩
      · simp only [hglobal, hdepth, ne_eq, not_false_iff, and_self, if_false, if_true] at hspares ⊢
        split_ifs with hpops
        · split
          · exact hlast ▸ hinsert
          · next first rest hpop =>
            have hkeys := SortedMap.keys_of_popFirst? hpop
            have hpopped := pop_keeps hinsert.within hpop
              (hspares hpops.1 hpops.2 first.1 (by rw [hkeys]; rfl))
            have hkeep (n : UInt32) (hn : n ∈ (state.pendingSamples.insert sn sample).keys) :=
              hpopped.waits n ⟨hn, by simp [Ahead, hlast]⟩
            have hkeeps : KeepsSample base state sn
                (deliverAndFlush { state with pendingSamples := rest } first.1 first.2) :=
              ⟨⟨hpopped.within, hpopped.outs,
                fun n hn ↦ hkeep n (SortedMap.mem_keys_insert.mpr (.inr hn.1))⟩,
                fun _ ↦ hkeep sn (SortedMap.mem_keys_insert.mpr (.inl rfl))⟩
            exact hlast ▸ hkeeps
        · exact hlast ▸ hinsert
  | some last =>
    have hl : InWindow base last := h.last last hlast
    rw [hlast] at hspares
    simp only at hspares ⊢
    split_ifs with hnext hdiff hretransmission
    · refine ⟨deliverAndFlush_keeps h sample hsn fun n hn ↦ ?_,
        fun _ ↦ .inl (mem_deliverAndFlush sn sample)⟩
      have hahead := hn.2 last hlast
      subst hnext
      rcases serialLt_next hl (h.keys n hn.1) hahead with rfl | ⟨_, hlt⟩
      · simp [SerialLt, seqnumberDiff_self]
      · intro hback
        have := serialLt_trans hsn (h.keys n hn.1) hsn hlt hback
        simp [SerialLt, seqnumberDiff_self] at this
    · exact hlast ▸ insert_keeps h sample hsn
    · have hlt : SerialLt last sn := by
        rw [seqnumberDiff_next_eq_rank hsn hl] at hdiff
        exact (serialLt_iff_rank hl hsn).mpr (by omega)
      have hspared := hspares hlt (by simpa using hretransmission)
      refine ⟨deliver_keeps h ?_ hsn fun n hn ↦ hspared n hn.1 (hn.2 last hlast), fun _ ↦ .inl ?_⟩
      all_goals
        rw [deliveredNumbers_report]
      · rfl
      · exact .head _
    · refine ⟨.refl h, fun hahead ↦ ?_⟩
      have hlt := hahead last hlast
      rcases serialLt_next hl hsn hlt with heq | ⟨hnextWindow, hltnext⟩
      · exact absurd heq hnext
      · rw [serialLt_iff_rank hl hsn] at hlt
        have hne : rank base sn ≠ rank base last + 1 := by
          intro heq
          rw [← rank_seqnumberNext hl] at heq
          exact hnext (rank_injective heq)
        rw [seqnumberDiff_next_eq_rank hsn hl] at hdiff
        omega

end SequencedState

/-! ### The steps of a source -/

section Source

variable {α : Type}

/-- The samples of a source lie in one half of the range, and there is memory for them. -/
def SourceEvent.Within (base : UInt32) : SourceEvent α → Prop
  | .sample sn memory _ => InWindow base sn ∧ memory = .plenty
  | _ => True

/-- The condition on an event of a source: a sample spares the parked ones, and a flush that takes
place finds those that are ahead in the serial order. -/
def SourceEvent.Spares (opts : DeliveryOptions) (globalPendingQueries : UInt64)
    (s : Option (SequencedState α)) : SourceEvent α → Prop
  | .quiet => True
  | .sample sn _ content => (s.getD .init).Spares opts globalPendingQueries sn content
  | .flush own => ∀ state ∈ s, (state.atEnd own).pendingQueries = 0 →
      SequencedState.SerialSorted state.lastDelivered state.pendingSamples.keys

/-- The numbers of the samples that were ahead of everything delivered when they were received -/
def SourceEvent.aheadAfter (told : List (Output α)) (ahead : List UInt32) :
    SourceEvent α → List UInt32
  | .sample sn _ _ => if (deliveredNumbers told).all (SerialLt · sn) then sn :: ahead else ahead
  | _ => ahead

/-- What is known of a source: what was received ahead was delivered, or waits. -/
structure SourceKept (base : UInt32) (s : Option (SequencedState α)) (told : List (Output α))
    (ahead : List UInt32) : Prop where
  emits : Emits none told (s.bind SequencedState.lastDelivered)
  within : ∀ state ∈ s, state.Within base
  outs : ∀ n ∈ deliveredNumbers told, InWindow base n
  window : ∀ n ∈ ahead, InWindow base n
  kept : ∀ n ∈ ahead, n ∈ deliveredNumbers told ∨ ∃ state ∈ s, state.Waits n

variable {base : UInt32} {s s' : Option (SequencedState α)} {told outs : List (Output α)}
  {ahead : List UInt32}

theorem SourceKept.nothing : SourceKept (α := α) base none [] [] :=
  ⟨.nil, nofun, nofun, nofun, nofun⟩

theorem SequencedState.init_within : (SequencedState.init : SequencedState α).Within base :=
  ⟨nofun, nofun⟩

/-- The state of a source, made if it is not there -/
theorem SourceKept.getD (h : SourceKept base s told ahead) : (s.getD .init).Within base := by
  cases s with
  | none => exact SequencedState.init_within
  | some state => exact h.within state rfl

/-- A source goes on to a state in which nothing that waits is lost. -/
theorem SourceKept.keeps (h : SourceKept base s told ahead)
    {r : SequencedState α × List (Output α)} {state' : SequencedState α}
    (hemits : Emits (s.bind SequencedState.lastDelivered) r.2 state'.lastDelivered)
    (hkeeps : SequencedState.Keeps base (s.getD .init) r)
    (hlast : state'.lastDelivered = r.1.lastDelivered)
    (hpending : state'.pendingSamples = r.1.pendingSamples) :
    SourceKept base (some state') (told ++ r.2) ahead where
  emits := h.emits.append hemits
  within := by
    rintro _ ⟨rfl⟩
    exact ⟨hpending ▸ hkeeps.within.keys, hlast ▸ hkeeps.within.last⟩
  outs n hn := by
    rw [deliveredNumbers_append] at hn
    rcases mem_append.mp hn with hn | hn
    · exact h.outs n hn
    · exact hkeeps.outs n hn
  window := h.window
  kept n hn := by
    rw [deliveredNumbers_append, mem_append]
    rcases h.kept n hn with hmem | ⟨state, hstate, hwaits⟩
    · exact .inl (.inl hmem)
    · have hget : s.getD .init = state := by
        rw [mem_def] at hstate
        rw [hstate]
        rfl
      rcases hkeeps.waits n (hget ▸ hwaits) with hmem | hwaits
      · exact .inl (.inr hmem)
      · refine .inr ⟨state', rfl, ?_⟩
        exact ⟨hpending ▸ hwaits.1, hlast ▸ hwaits.2⟩

/-- What is ahead of everything delivered is ahead of the last number. -/
theorem SourceKept.ahead_last (h : SourceKept base s told ahead)
    (hsn : ∀ n ∈ deliveredNumbers told, SerialLt n sn) : Ahead (s.getD .init).lastDelivered sn := by
  have hlast : (s.getD .init).lastDelivered = s.bind SequencedState.lastDelivered := by
    cases s <;> rfl
  rw [hlast]
  rcases h.emits.last_mem with hnone | ⟨b, hb, hsome⟩
  · rw [hnone]
    exact nofun
  · rw [hsome]
    rintro _ ⟨rfl⟩
    exact hsn b hb

theorem SourceKept.step {opts : DeliveryOptions} {globalPendingQueries : UInt64} {e : SourceEvent α}
    (h : SourceKept base s told ahead)
    (hstep : SourceStep opts globalPendingQueries e s outs s') (hwithin : e.Within base)
    (hspares : e.Spares opts globalPendingQueries s) :
    SourceKept base s' (told ++ outs) (e.aheadAfter told ahead) := by
  have hemits := hstep.emits
  cases hstep with
  | same =>
    rw [append_nil]
    exact h
  | counted => exact h.keeps hemits (.refl h.getD) rfl rfl
  | made => exact h.keeps hemits (.refl h.getD) rfl rfl
  | notMade => exact absurd hwithin.2 nofun
  | flushNone =>
    rw [append_nil]
    exact h
  | @flush state own =>
    have hwithin : (state.atEnd own).Within base :=
      ⟨(h.within state rfl).keys, (h.within state rfl).last⟩
    have hflush := SequencedState.flush_keeps hwithin (hspares state rfl)
    exact h.keeps hemits ⟨hflush.within, hflush.outs, hflush.waits⟩ rfl rfl
  | @sample _ sn memory content n r hmade hr =>
    obtain ⟨hsn, rfl⟩ := hwithin
    have hsample := SequencedState.handleSample_keeps h.getD hsn hspares
    rw [← hr] at hsample
    have hnext : SourceKept base (some { r.1.1 with pendingQueries := n }) (told ++ r.1.2) ahead :=
      h.keeps hemits hsample.toKeeps rfl rfl
    simp only [SourceEvent.aheadAfter]
    split_ifs with hahead
    · refine ⟨hnext.emits, hnext.within, hnext.outs, fun m hm ↦ ?_, fun m hm ↦ ?_⟩
      · rcases mem_cons.mp hm with rfl | hm
        · exact hsn
        · exact h.window m hm
      · rcases mem_cons.mp hm with rfl | hm
        · rw [deliveredNumbers_append, mem_append]
          rcases hsample.arrives (h.ahead_last (by simpa using hahead)) with hmem | hwaits
          · exact .inl (.inr hmem)
          · exact .inr ⟨_, rfl, hwaits⟩
        · exact hnext.kept m hm
    · exact hnext

/-- What was received ahead is not reported as missed. -/
theorem SourceKept.not_counted (h : SourceKept base s told ahead) (hn : n ∈ ahead) :
    ¬Counted n none told := by
  refine h.emits.not_counted (h.window n hn) nofun h.outs ?_
  rcases h.kept n hn with hmem | ⟨state, hstate, hwaits⟩
  · exact .inl hmem
  · rw [mem_def] at hstate
    subst hstate
    exact .inr (.inr hwaits.2)

end Source

/-! ### Runs -/

/-- A subscriber, and for each source the numbers that were received ahead of everything delivered -/
structure Watched (Source Zid α : Type) [LinearOrder Zid] where
  subscriber : AdvancedSubscriber Source Zid α
  ahead : Source → List UInt32

namespace Watched

variable {Source Zid α : Type} [DecidableEq Source] [LinearOrder Zid]

/-- A new subscriber -/
def init (historyEnabled : Bool) (maxSamples : ℕ) (retransmission : Bool) : Watched Source Zid α :=
  ⟨.init historyEnabled maxSamples retransmission, fun _ ↦ []⟩

variable (v : Watched Source Zid α)

/-- One event -/
def step (e : AdvancedEvent Source Zid α) : Watched Source Zid α where
  subscriber := v.subscriber.step e
  ahead id := (v.subscriber.sourceEvent id e).aheadAfter (v.subscriber.seen id) (v.ahead id)

/-- What was received ahead is delivered or parked, and not reported as missed. -/
def Kept : Prop :=
  ∀ id, ∀ n ∈ v.ahead id, (n ∈ deliveredNumbers (v.subscriber.seen id) ∨
      ∃ state ∈ v.subscriber.sequencedStates id, n ∈ state.pendingSamples.keys) ∧
    ¬Counted n none (v.subscriber.seen id)

/-- The runs in which every event is allowed in the state in which it happens -/
inductive Reached (Allowed : AdvancedSubscriber Source Zid α → AdvancedEvent Source Zid α → Prop) :
    Watched Source Zid α → Prop
  | init (historyEnabled : Bool) (maxSamples : ℕ) (retransmission : Bool) :
      Reached Allowed (.init historyEnabled maxSamples retransmission)
  | step {v : Watched Source Zid α} {e : AdvancedEvent Source Zid α} (h : Reached Allowed v)
      (hallowed : Allowed v.subscriber e) : Reached Allowed (v.step e)

/-- The subscriber is not undeclared, the numbers of each source lie in one half of the range, and
there is memory for the samples. -/
def Orderly (base : Source → UInt32) (w : AdvancedSubscriber Source Zid α)
    (e : AdvancedEvent Source Zid α) : Prop :=
  (w.step e).isUndeclaring = false ∧ ∀ id, (w.sourceEvent id e).Within (base id)

/-- No sample that waits is passed over. -/
def Sparing (base : Source → UInt32) (w : AdvancedSubscriber Source Zid α)
    (e : AdvancedEvent Source Zid α) : Prop :=
  Orderly base w e ∧
    ∀ id, (w.sourceEvent id e).Spares w.opts w.globalPendingQueries (w.sequencedStates id)

variable {v}

theorem Reached.sources {base : Source → UInt32} (h : Reached (Sparing base) v) (id : Source) :
    SourceKept (base id) (v.subscriber.sequencedStates id) (v.subscriber.seen id) (v.ahead id) := by
  induction h with
  | init => exact .nothing
  | @step v e _ hallowed ih =>
    obtain ⟨⟨hlive, hwithin⟩, hspares⟩ := hallowed
    obtain ⟨outs, hseen, hstep⟩ := AdvancedSubscriber.step_advances e id hlive
    have hnext := ih.step hstep (hwithin id) (hspares id)
    rw [← hseen] at hnext
    exact hnext

/-- In a run in which no sample that waits is passed over, none is lost. -/
theorem Reached.samples_kept {base : Source → UInt32} (h : Reached (Sparing base) v) : v.Kept := by
  intro id n hn
  have hsource := h.sources id
  refine ⟨?_, hsource.not_counted hn⟩
  rcases hsource.kept n hn with hmem | ⟨state, hstate, hwaits⟩
  · exact .inl hmem
  · exact .inr ⟨state, hstate, hwaits.1⟩

/-! ### Two runs -/

/-- A live sample of a source -/
def liveSample (source : ℕ) (sn : UInt32) : AdvancedEvent ℕ ℕ Unit :=
  .live ⟨some (source, sn), none, ()⟩ .plenty

variable {w : AdvancedSubscriber ℕ ℕ Unit}

theorem orderly_liveSample {source : ℕ}
    (hlive : (w.step (liveSample source sn)).isUndeclaring = false) (hsn : InWindow 0 sn) :
    Orderly (fun _ ↦ 0) w (liveSample source sn) := by
  refine ⟨hlive, fun id ↦ ?_⟩
  simp only [liveSample, AdvancedSubscriber.sourceEvent, AdvancedSubscriber.sampleEvent]
  split_ifs
  · trivial
  · exact ⟨hsn, rfl⟩
  · trivial

theorem sparing_liveSample {source : ℕ}
    (hlive : (w.step (liveSample source sn)).isUndeclaring = false) (hsn : InWindow 0 sn)
    (hspares : ((w.sequencedStates source).getD .init).Spares w.opts w.globalPendingQueries sn ()) :
    Sparing (fun _ ↦ 0) w (liveSample source sn) := by
  refine ⟨orderly_liveSample hlive hsn, fun id ↦ ?_⟩
  simp only [liveSample, AdvancedSubscriber.sourceEvent, AdvancedSubscriber.sampleEvent]
  split_ifs with _ hid
  · trivial
  · subst hid
    exact hspares
  · trivial

/-- With retransmission, 7 waits for 6. -/
def waiting : Watched ℕ ℕ Unit :=
  ((init false 0 true).step (liveSample 4 5)).step (liveSample 4 7)

theorem waiting_kept : waiting.Kept := by
  have hfirst : Reached (Sparing fun _ ↦ 0) ((init false 0 true).step (liveSample 4 5)) :=
    (Reached.init false 0 true).step (sparing_liveSample rfl (by decide) fun n hn ↦ nomatch hn)
  have hreached : Reached (Sparing fun _ ↦ 0) waiting :=
    hfirst.step (sparing_liveSample rfl (by decide) fun _ hretransmission ↦ nomatch hretransmission)
  exact hreached.samples_kept

/-- With a history of two samples and no retransmission, 3 is parked when 1 is delivered, and 4
passes over it. The initial query ends then. -/
def overtaken : Watched ℕ ℕ Unit :=
  [liveSample 4 1, liveSample 4 3, liveSample 4 4, .call .initial, .returned .initial .registered,
    .drop .initial false].foldl step (init true 2 false)

theorem reached_overtaken : Reached (Orderly fun _ ↦ 0) overtaken := by
  have hquiet {w : AdvancedSubscriber ℕ ℕ Unit} {e : AdvancedEvent ℕ ℕ Unit}
      (hlive : (w.step e).isUndeclaring = false)
      (he : ∀ id, (w.sourceEvent id e).Within 0) : Orderly (fun _ ↦ 0) w e := ⟨hlive, he⟩
  unfold overtaken
  simp only [foldl_cons, foldl_nil]
  refine ((((((Reached.init true 2 false).step ?_).step ?_).step ?_).step ?_).step ?_).step ?_
  · exact orderly_liveSample rfl (by decide)
  · exact orderly_liveSample rfl (by decide)
  · exact orderly_liveSample rfl (by decide)
  · exact hquiet rfl fun _ ↦ trivial
  · exact hquiet rfl fun _ ↦ trivial
  · exact hquiet rfl fun _ ↦ trivial

theorem overtaken_not_kept :
    ¬∀ (base : ℕ → UInt32) (v : Watched ℕ ℕ Unit), Reached (Orderly base) v → v.Kept := by
  intro hkept
  have hahead : overtaken.ahead 4 = [4, 3, 1] := rfl
  have hseen : deliveredNumbers (overtaken.subscriber.seen 4) = [1, 4] := rfl
  have hkeys : (overtaken.subscriber.sequencedStates 4).map (·.pendingSamples.keys) = some [] := rfl
  have h := (hkept _ overtaken reached_overtaken 4 3 (by simp [hahead])).1
  rcases h with hmem | ⟨state, hstate, hmem⟩
  · simp [hseen] at hmem
  · rw [mem_def] at hstate
    rw [hstate] at hkeys
    have hnil : state.pendingSamples.keys = [] := some.inj hkeys
    simp [hnil] at hmem

end Watched

end ZenohPico.Api
