import Mathlib.Data.List.Count
import Mathlib.Data.List.Induction
import Mathlib.Data.List.Pairwise
import ZenohPico.Session.PendingQueries

/-!
From its registration to its dropper: the life of a pending query (`src/session/query.c`).

Every way out of the list of pending queries runs the dropper of the query that leaves, so that
the droppers that were run and the queries that are pending always add up to the calls of
`_z_query` (`Accounted`). Finals are counted by the number of the query, which is as good as the
query itself as long as no two pending queries have the same one (`lifecycle_of_freshQueries`).
-/

namespace ZenohPico.Session

open Foundations List

/-! ### Leaving the list -/

section Serials

variable {Key : Type}

/-- The calls of `_z_query` whose queries are pending -/
def PendingTable.serials (zn : PendingTable Key) : List ℕ := zn.pendingQueries.map (·.serial)

/-- The numbers of the pending queries -/
def PendingTable.ids (zn : PendingTable Key) : List UInt64 := zn.pendingQueries.map (·.id)

theorem mem_serials_of_find? {zn : PendingTable Key} {p : RegisteredQuery Key → Bool}
    {pq : RegisteredQuery Key} (h : zn.pendingQueries.find? p = some pq) : pq.serial ∈ zn.serials :=
  mem_map_of_mem (mem_of_find?_eq_some h)

variable [DecidableEq Key]

/-- How often a dropper is run by some calls -/
def droppers (serial : ℕ) (calls : List (ClosureCall Key)) : ℕ := calls.count (.dropper serial)

theorem droppers_append (serial : ℕ) (before after : List (ClosureCall Key)) :
    droppers serial (before ++ after) = droppers serial before + droppers serial after :=
  count_append

theorem droppers_map_dropper (serial : ℕ) (pqs : List (RegisteredQuery Key)) :
    droppers serial (pqs.map fun pq ↦ (.dropper pq.serial : ClosureCall Key)) =
      (pqs.map (·.serial)).count serial := by
  induction pqs with
  | nil => rfl
  | cons pq pqs ih =>
    rw [droppers] at ih ⊢
    rw [map_cons, map_cons, count_cons, count_cons, ih]
    simp

theorem droppers_map_callback (serial other : ℕ) (answers : List (QueryAnswer Key)) :
    droppers serial (answers.map (ClosureCall.callback other)) = 0 := by
  simp [droppers, count_eq_zero]

variable (zn : PendingTable Key)

/-- The query that is dropped has its dropper run. -/
theorem dropFirst_accounts (p : RegisteredQuery Key → Bool) (serial : ℕ) :
    droppers serial (zn.dropFirst p).2 + (zn.dropFirst p).1.serials.count serial =
      zn.serials.count serial := by
  simp only [PendingTable.dropFirst, PendingTable.serials, droppers_map_dropper]
  induction zn.pendingQueries with
  | nil => rfl
  | cons pq pqs ih =>
    by_cases hpq : p pq = true
    · rw [List.find?_cons_of_pos hpq, eraseP_cons_of_pos hpq]
      simp [count_cons, Nat.add_comm]
    · rw [List.find?_cons_of_neg hpq, eraseP_cons_of_neg hpq, map_cons, map_cons,
        count_cons, count_cons, ← ih]
      omega

/-- The queries that are dropped have their droppers run. -/
theorem dropAll_accounts (p : RegisteredQuery Key → Bool) (serial : ℕ) :
    droppers serial (zn.dropAll p).2 + (zn.dropAll p).1.serials.count serial =
      zn.serials.count serial := by
  simp only [PendingTable.dropAll, PendingTable.serials, droppers_map_dropper]
  induction zn.pendingQueries with
  | nil => rfl
  | cons pq pqs ih =>
    by_cases hpq : p pq = true
    · rw [filter_cons_of_pos hpq, filter_cons_of_neg (by simpa using hpq), map_cons,
        map_cons, count_cons, count_cons, ← ih]
      omega
    · rw [filter_cons_of_neg hpq, filter_cons_of_pos (by simpa using hpq), map_cons,
        map_cons, count_cons, count_cons, ← ih]
      omega

end Serials

/-! ### One step -/

section Step

variable {Key : Type} [DecidableEq Key]

/-- The calls of `_z_query` of a step -/
def QueryEvent.created : QueryEvent Key → ℕ
  | .query .. => 1
  | _ => 0

/-- What a step runs: callbacks of pending queries, and then the droppers of those that leave. -/
structure StepSpec (zn : PendingTable Key) (created : ℕ)
    (result : PendingTable Key × List (ClosureCall Key)) : Prop where
  calls : result.1.calls = zn.calls + created
  accounts : ∀ serial, droppers serial result.2 + result.1.serials.count serial =
    zn.serials.count serial + if serial = zn.calls then created else 0
  pending : ∀ serial answer, .callback serial answer ∈ result.2 → serial ∈ zn.serials
  order : result.2.Pairwise fun earlier later ↦ ∀ serial answer,
    earlier = .dropper serial → later ≠ .callback serial answer

variable {zn : PendingTable Key}

theorem StepSpec.unchanged : StepSpec zn 0 (zn, []) where
  calls := rfl
  accounts := by simp [droppers]
  pending := by simp
  order := List.Pairwise.nil

/-- Only droppers are run. -/
theorem stepSpec_of_droppers {created : ℕ} {result : PendingTable Key × List (ClosureCall Key)}
    {s : List ℕ} (hresult : result.2 = s.map .dropper)
    (hcalls : result.1.calls = zn.calls + created)
    (haccounts : ∀ serial, droppers serial result.2 + result.1.serials.count serial =
      zn.serials.count serial + if serial = zn.calls then created else 0) :
    StepSpec zn created result where
  calls := hcalls
  accounts := haccounts
  pending := by simp [hresult]
  order := by
    rw [hresult]
    exact pairwise_map.mpr (pairwise_of_forall fun _ _ _ _ _ heq ↦ by cases heq)

theorem dropFirst_spec (p : RegisteredQuery Key → Bool) : StepSpec zn 0 (zn.dropFirst p) :=
  stepSpec_of_droppers (s := (zn.pendingQueries.find? p).toList.map (·.serial))
    (by simp [PendingTable.dropFirst]) rfl fun serial ↦ by simpa using dropFirst_accounts zn p serial

theorem dropAll_spec (p : RegisteredQuery Key → Bool) : StepSpec zn 0 (zn.dropAll p) :=
  stepSpec_of_droppers (s := (zn.pendingQueries.filter p).map (·.serial))
    (by simp [PendingTable.dropAll]) rfl fun serial ↦ by simpa using dropAll_accounts zn p serial

/-- A pending query that changes, and stays -/
theorem stepSpec_of_updateFirst {p : RegisteredQuery Key → Bool}
    {f : RegisteredQuery Key → RegisteredQuery Key} (hf : ∀ pq, (f pq).serial = pq.serial)
    {calls : List (ClosureCall Key)}
    (hcalls : ∀ call ∈ calls, ∃ serial ∈ zn.serials, ∃ answer, call = .callback serial answer) :
    StepSpec zn 0 ({ zn with pendingQueries := updateFirst p f zn.pendingQueries }, calls) where
  calls := rfl
  accounts := by
    intro serial
    have hnone : droppers serial calls = 0 := count_eq_zero.mpr fun hmem ↦ by
      obtain ⟨_, -, _, heq⟩ := hcalls _ hmem
      cases heq
    simp only [hnone, PendingTable.serials, map_updateFirst hf]
    simp
  pending := by
    intro serial answer hmem
    obtain ⟨other, hother, _, heq⟩ := hcalls _ hmem
    cases heq
    exact hother
  order := by
    refine pairwise_of_forall_mem_list fun earlier hearlier later _ serial answer heq ↦ ?_
    obtain ⟨_, -, _, heq'⟩ := hcalls _ hearlier
    rw [heq'] at heq
    cases heq

theorem replyPartial_spec (ops : KeyexprOps Key) (id : UInt64) (reply : Reply Key) :
    StepSpec zn 0 (zn.replyPartial ops id reply) := by
  rw [PendingTable.replyPartial]
  split
  · exact .unchanged
  · split
    · exact .unchanged
    · next pq hpq =>
      split
      · exact .unchanged
      · apply stepSpec_of_updateFirst
        · exact fun _ ↦ rfl
        · intro call hcall
          split at hcall
          · exact ⟨_, mem_serials_of_find? hpq, _, mem_singleton.mp hcall⟩
          · cases hcall

theorem replyErr_spec (id : UInt64) (payload : List UInt8) :
    StepSpec zn 0 (zn.replyErr id payload) := by
  rw [PendingTable.replyErr]
  split
  · exact .unchanged
  · split
    · exact .unchanged
    · next pq hpq =>
      refine ⟨rfl, fun serial ↦ by simp [droppers], fun serial answer hmem ↦ ?_,
        pairwise_singleton _ _⟩
      cases mem_singleton.mp hmem
      exact mem_serials_of_find? hpq

theorem replyFinal_spec (id : UInt64) : StepSpec zn 0 (zn.replyFinal id) := by
  rw [PendingTable.replyFinal]
  split
  · exact .unchanged
  · split
    · exact .unchanged
    · next pq hpq =>
      simp only
      generalize (if pq.remainingFinals > 0 then pq.remainingFinals - 1 else 0) = remainingFinals
      split
      · -- the stored replies are delivered before the dropper runs
        have hdrop : StepSpec zn 0 (zn.dropFirst (·.id = pq.id)) := dropFirst_spec _
        have hdelivered : ∃ answers : List (QueryAnswer Key), (if pq.consolidation = .latest then
            pq.pendingReplies.map (ClosureCall.callback pq.serial <| .data ·) else []) =
            answers.map (ClosureCall.callback pq.serial) := by
          split
          · exact ⟨pq.pendingReplies.map .data, by simp⟩
          · exact ⟨[], rfl⟩
        obtain ⟨answers, hanswers⟩ := hdelivered
        rw [hanswers]
        refine ⟨rfl, fun serial ↦ ?_, fun serial answer hmem ↦ ?_, ?_⟩
        · rw [droppers_append, droppers_map_callback, Nat.zero_add]
          exact hdrop.accounts serial
        · rcases mem_append.mp hmem with hmem | hmem
          · obtain ⟨_, -, heq⟩ := mem_map.mp hmem
            cases heq
            exact mem_serials_of_find? hpq
          · exact hdrop.pending serial answer hmem
        · refine pairwise_append.mpr ⟨?_, hdrop.order, ?_⟩
          · refine pairwise_map.mpr (pairwise_of_forall fun _ _ _ _ heq ↦ ?_)
            cases heq
          · rintro earlier hearlier later - serial answer rfl
            obtain ⟨_, -, heq⟩ := mem_map.mp hearlier
            cases heq
      · apply stepSpec_of_updateFirst
        · exact fun _ ↦ rfl
        · simp

theorem query_spec (querierId : Option UInt32) (key : Key) (anyke : Bool)
    (consolidation : ConsolidationMode) (allowedDestination : Locality) (timeout : UInt64)
    (now peersCount : ℕ) (sent : Bool) :
    StepSpec zn 1 (zn.query querierId key anyke consolidation allowedDestination timeout now
      peersCount sent) := by
  rw [PendingTable.query]
  simp only
  split
  · refine stepSpec_of_droppers (s := [zn.calls]) rfl rfl fun serial ↦ ?_
    by_cases hserial : serial = zn.calls
    · subst hserial
      simp [droppers, PendingTable.serials, Nat.add_comm]
    · simp [droppers, PendingTable.serials, hserial, Ne.symm hserial]
  · cases sent with
    | true =>
      refine stepSpec_of_droppers (s := []) rfl rfl fun serial ↦ ?_
      by_cases hserial : serial = zn.calls
      · subst hserial
        simp [droppers, PendingTable.serials]
      · simp [droppers, PendingTable.serials, hserial, Ne.symm hserial]
    | false =>
      refine stepSpec_of_droppers (s := [zn.calls]) (by simp [PendingTable.dropFirst]) rfl
        fun serial ↦ ?_
      by_cases hserial : serial = zn.calls
      · subst hserial
        simp [PendingTable.dropFirst, droppers, PendingTable.serials, Nat.add_comm]
      · simp [PendingTable.dropFirst, droppers, PendingTable.serials, hserial, Ne.symm hserial]

/-- Every step runs the droppers of the queries that leave, and callbacks of pending ones before. -/
theorem stepTable_spec (ops : KeyexprOps Key) (zn : PendingTable Key)
    (e : QueryEvent Key) : StepSpec zn e.created (stepTable ops zn e) := by
  cases e with
  | query querierId key anyke consolidation allowedDestination timeout now peersCount sent =>
    exact query_spec querierId key anyke consolidation allowedDestination timeout now peersCount sent
  | reply id reply => exact replyPartial_spec ops id reply
  | replyErr id payload => exact replyErr_spec id payload
  | final id => exact replyFinal_spec id
  | timeout now => exact dropAll_spec _
  | undeclareQuerier querierId =>
    simp only [stepTable]
    split
    · exact .unchanged
    · exact dropAll_spec _
  | cancel id =>
    simp only [stepTable]
    split
    · exact .unchanged
    · exact dropFirst_spec _
  | close => exact ⟨rfl, by simp [stepTable, droppers, PendingTable.serials, QueryEvent.created],
      by simp [stepTable], List.Pairwise.nil⟩
  | flush => exact dropAll_spec _

end Step

/-! ### Finals and numbers -/

variable {id : UInt64}

section Numbers

variable {Key : Type}

/-- What is left of a pending query by a step that it survives -/
structure Survives (zn : PendingTable Key) (e : QueryEvent Key) (pq pq' : RegisteredQuery Key) :
    Prop where
  mem : pq ∈ zn.pendingQueries
  serial : pq'.serial = pq.serial
  id : pq'.id = pq.id
  other : e ≠ .final pq.id → pq'.remainingFinals = pq.remainingFinals
  final : e = .final pq.id → zn.isClosed = false →
    1 < pq.remainingFinals.toNat ∧ pq'.remainingFinals.toNat + 1 = pq.remainingFinals.toNat
  closed : zn.isClosed = true → pq'.remainingFinals = pq.remainingFinals

variable {e : QueryEvent Key}

theorem Survives.refl {zn : PendingTable Key} {pq' : RegisteredQuery Key}
    (h : pq' ∈ zn.pendingQueries) (hfinal : e = .final pq'.id → zn.isClosed = true) :
    Survives zn e pq' pq' where
  mem := h
  serial := rfl
  id := rfl
  other := fun _ ↦ rfl
  final := fun he hopen ↦ by rw [hfinal he] at hopen; cases hopen
  closed := fun _ ↦ rfl

/-- A query that is sent is given a number that no pending query has, and waits for a number of
finals that fits into 32 bits. -/
def PendingTable.FreshQuery (zn : PendingTable Key) : QueryEvent Key → Prop
  | .query _ _ _ _ allowedDestination _ _ peersCount true =>
    expectedFinals allowedDestination peersCount < UInt32.size ∧ zn.queryId ∉ zn.ids
  | _ => True

/-- The queries of a run that are sent are all given fresh numbers. -/
def FreshQueries (ops : KeyexprOps Key) (zn : PendingTable Key) : List (QueryEvent Key) → Prop
  | [] => True
  | e :: events => zn.FreshQuery e ∧ FreshQueries ops (stepTable ops zn e).1 events

variable {ops : KeyexprOps Key} {zn : PendingTable Key} {pq' : RegisteredQuery Key}

/-- A pending query after a final was pending before, with one more final to come if it is the one
that the final is for. -/
theorem stepTable_final_survives (hids : zn.ids.Nodup)
    (h : pq' ∈ (stepTable ops zn (.final id)).1.pendingQueries) :
    ∃ pq, Survives zn (.final id) pq pq' := by
  by_cases hclosed : zn.isClosed = true
  · simp only [stepTable, PendingTable.replyFinal, if_pos hclosed] at h
    exact ⟨pq', .refl h fun _ ↦ hclosed⟩
  · have hopen : zn.isClosed = false := by simpa using hclosed
    cases hfind : zn.pendingQueries.find? (·.id = id) with
    | none =>
      simp only [stepTable, PendingTable.replyFinal, hopen, hfind] at h
      refine ⟨pq', .refl h fun heq ↦ ?_⟩
      cases heq
      simpa using List.find?_eq_none.mp hfind pq' h
    | some pq =>
      have hholds : zn.Holds id pq := ⟨hopen, hfind⟩
      have hpq := mem_of_find?_eq_some hfind
      by_cases hfinals : 1 < pq.remainingFinals.toNat
      · have hsub := toNat_sub_one (Nat.le_of_lt hfinals)
        rw [hholds.stepTable_final ops hfinals, updateFirst_eq_map hids] at h
        obtain ⟨before, hbefore, rfl⟩ := mem_map.mp h
        by_cases hid : before.id = id
        · rw [if_pos hid]
          have heq : before = pq := inj_on_of_nodup_map hids hbefore hpq
            (hid.trans hholds.id_eq.symm)
          subst heq
          exact ⟨before, hbefore, rfl, rfl, fun he ↦ absurd (by rw [hid]) he,
            fun _ _ ↦ ⟨hfinals, by simp only [hsub]; omega⟩, fun hc ↦ absurd hc hclosed⟩
        · rw [if_neg hid]
          exact ⟨before, .refl hbefore fun heq ↦ by cases heq; exact absurd rfl hid⟩
      · rw [hholds.stepTable_last ops (Nat.not_lt.mp hfinals), eraseP_eq_filter hids] at h
        obtain ⟨hmem, hid⟩ := mem_filter.mp h
        exact ⟨pq', .refl hmem fun heq ↦ by cases heq; simp at hid⟩

/-- A pending query after a step was pending before, or is registered by the step. -/
theorem stepTable_survives (hids : zn.ids.Nodup) (h : pq' ∈ (stepTable ops zn e).1.pendingQueries) :
    (∃ pq, Survives zn e pq pq') ∨ pq'.serial = zn.calls := by
  have hsame : (∀ id, e ≠ .final id) → pq' ∈ zn.pendingQueries → ∃ pq, Survives zn e pq pq' :=
    fun he hmem ↦ ⟨pq', .refl hmem fun heq ↦ absurd heq (he _)⟩
  cases e with
  | query querierId key anyke consolidation allowedDestination timeout now peersCount sent =>
    simp only [stepTable, PendingTable.query] at h
    split at h
    · exact .inl (hsame (by simp) h)
    · cases sent with
      | true =>
        rcases mem_cons.mp h with rfl | h
        · exact .inr rfl
        · exact .inl (hsame (by simp) h)
      | false =>
        simp only [if_neg Bool.false_ne_true, PendingTable.dropFirst] at h
        rcases mem_cons.mp (mem_of_mem_eraseP h) with rfl | h
        · exact .inr rfl
        · exact .inl (hsame (by simp) h)
  | reply id reply =>
    refine .inl ?_
    simp only [stepTable, PendingTable.replyPartial] at h
    split at h
    · exact hsame (by simp) h
    · split at h
      · exact hsame (by simp) h
      · split at h
        · exact hsame (by simp) h
        · rcases mem_updateFirst h with hmem | ⟨pq, hpq, rfl⟩
          · exact hsame (by simp) hmem
          · exact ⟨pq, mem_of_find?_eq_some hpq, rfl, rfl, fun _ ↦ rfl, by simp, fun _ ↦ rfl⟩
  | replyErr id payload =>
    refine .inl (hsame (by simp) ?_)
    simp only [stepTable, PendingTable.replyErr] at h
    split at h
    · exact h
    · split at h <;> exact h
  | final id => exact .inl (stepTable_final_survives hids h)
  | timeout now => exact .inl (hsame (by simp) (mem_of_mem_filter h))
  | undeclareQuerier querierId =>
    refine .inl (hsame (by simp) ?_)
    simp only [stepTable] at h
    split at h
    · exact h
    · exact mem_of_mem_filter h
  | cancel id =>
    refine .inl (hsame (by simp) ?_)
    simp only [stepTable] at h
    split at h
    · exact h
    · exact mem_of_mem_eraseP h
  | close => exact .inl (hsame (by simp) h)
  | flush => exact .inl (hsame (by simp) (mem_of_mem_filter h))

/-- A fresh step keeps the numbers of the pending queries distinct. -/
theorem stepTable_ids_nodup (ops : KeyexprOps Key) (hids : zn.ids.Nodup)
    {e : QueryEvent Key} (hfresh : zn.FreshQuery e) : (stepTable ops zn e).1.ids.Nodup := by
  have hsublist : ∀ {zn' : PendingTable Key}, zn'.pendingQueries.Sublist zn.pendingQueries →
      zn'.ids.Nodup := fun h ↦ hids.sublist (h.map _)
  have hupdate : ∀ {p : RegisteredQuery Key → Bool} {f : RegisteredQuery Key → RegisteredQuery Key},
      (∀ pq, (f pq).id = pq.id) → ((updateFirst p f zn.pendingQueries).map (·.id)).Nodup := by
    intro p f hf
    rw [map_updateFirst hf]
    exact hids
  cases e with
  | query querierId key anyke consolidation allowedDestination timeout now peersCount sent =>
    simp only [stepTable, PendingTable.query]
    split
    · exact hids
    · cases sent with
      | true => exact nodup_cons.mpr ⟨hfresh.2, hids⟩
      | false => exact hsublist (by simp [PendingTable.dropFirst])
  | reply id reply =>
    simp only [stepTable, PendingTable.replyPartial]
    split
    · exact hids
    · split
      · exact hids
      · split
        · exact hids
        · exact hupdate fun _ ↦ rfl
  | replyErr id payload =>
    simp only [stepTable, PendingTable.replyErr]
    split
    · exact hids
    · split <;> exact hids
  | final id =>
    simp only [stepTable, PendingTable.replyFinal]
    split
    · exact hids
    · split
      · exact hids
      · next pq _ =>
        generalize (if pq.remainingFinals > 0 then pq.remainingFinals - 1 else 0) = remainingFinals
        split
        · exact hsublist eraseP_sublist
        · exact hupdate fun _ ↦ rfl
  | timeout now => exact hsublist filter_sublist
  | undeclareQuerier querierId =>
    simp only [stepTable]
    split
    · exact hids
    · exact hsublist filter_sublist
  | cancel id =>
    simp only [stepTable]
    split
    · exact hids
    · exact hsublist eraseP_sublist
  | close => exact hids
  | flush => exact hsublist filter_sublist

theorem stepTable_closed (h : zn.isClosed = true) : (stepTable ops zn e).1.isClosed = true := by
  cases e with
  | query querierId key anyke consolidation allowedDestination timeout now peersCount sent =>
    simp [stepTable, PendingTable.query, h]
  | undeclareQuerier querierId => simp [stepTable, h]
  | cancel id => simp [stepTable, h]
  | reply id reply => simp [stepTable, PendingTable.replyPartial, h]
  | replyErr id payload => simp [stepTable, PendingTable.replyErr, h]
  | final id => simp [stepTable, PendingTable.replyFinal, h]
  | timeout now => exact h
  | close => rfl
  | flush => exact h

/-- A final drops a query when it is found by the number, and waits for no other one. -/
theorem mem_final_iff {serial : ℕ} : .dropper serial ∈ (stepTable ops zn (.final id)).2 ↔
      ∃ pq, zn.Holds id pq ∧ pq.remainingFinals.toNat ≤ 1 ∧ pq.serial = serial := by
  have hcallbacks : ∀ pq : RegisteredQuery Key, .dropper serial ∉
      (if pq.consolidation = .latest then
        pq.pendingReplies.map (ClosureCall.callback pq.serial <| .data ·) else []) := by
    intro pq
    split <;> simp
  constructor
  · intro h
    have hopen : zn.isClosed = false := by
      by_contra hclosed
      simp [stepTable, PendingTable.replyFinal, (Bool.not_eq_false _).mp hclosed] at h
    cases hfind : zn.pendingQueries.find? (·.id = id) with
    | none => simp [stepTable, PendingTable.replyFinal, hfind] at h
    | some pq =>
      have hholds : zn.Holds id pq := ⟨hopen, hfind⟩
      by_cases hfinals : 1 < pq.remainingFinals.toNat
      · rw [hholds.stepTable_final ops hfinals] at h
        cases h
      · rw [hholds.stepTable_last ops (Nat.not_lt.mp hfinals)] at h
        rcases mem_append.mp h with h | h
        · exact absurd h (hcallbacks pq)
        · cases mem_singleton.mp h
          exact ⟨pq, hholds, Nat.not_lt.mp hfinals, rfl⟩
  · rintro ⟨pq, hholds, hfinals, rfl⟩
    rw [hholds.stepTable_last ops hfinals]
    exact mem_append_right _ mem_cons_self

/-- The query `serial`, if it is pending, has the number `id` and still waits for the finals of `n`
that are not among `k` of them. -/
def Counted (zn : PendingTable Key) (serial : ℕ) (id : UInt64) (n k : ℕ) : Prop :=
  ∀ pq ∈ zn.pendingQueries, pq.serial = serial → pq.id = id ∧ 0 < pq.remainingFinals.toNat ∧
    (zn.isClosed = false → pq.remainingFinals.toNat + k = n)

theorem Counted.step [DecidableEq Key] {serial : ℕ} {id : UInt64} {n k : ℕ}
    (h : Counted zn serial id n k) (hids : zn.ids.Nodup) (hserial : serial < zn.calls) (e : QueryEvent Key) :
    Counted (stepTable ops zn e).1 serial id n (k + if e = .final id then 1 else 0) := by
  intro pq' hpq' hpq'serial
  rcases stepTable_survives hids hpq' with ⟨pq, hsurvives⟩ | hnew
  · obtain ⟨hid, hpos, hcount⟩ := h pq hsurvives.mem (hsurvives.serial.symm.trans hpq'serial)
    refine ⟨hsurvives.id.trans hid, ?_, fun hopen ↦ ?_⟩
    · by_cases hclosed : zn.isClosed = true
      · rw [hsurvives.closed hclosed]
        exact hpos
      · by_cases he : e = .final pq.id
        · have := hsurvives.final he (by simpa using hclosed)
          omega
        · rw [hsurvives.other he]
          exact hpos
    · have hwasOpen : zn.isClosed = false := by
        by_contra hclosed
        rw [stepTable_closed (by simpa using hclosed)] at hopen
        cases hopen
      have hbefore := hcount hwasOpen
      rw [← hid]
      by_cases he : e = .final pq.id
      · have := hsurvives.final he hwasOpen
        rw [if_pos he]
        omega
      · rw [if_neg he, hsurvives.other he, Nat.add_zero]
        exact hbefore
  · omega

end Numbers

/-! ### Runs -/

section Runs

variable {Key : Type} [DecidableEq Key] (ops : KeyexprOps Key)

/-- The droppers that were run and the pending queries are the calls of `_z_query`, once each. No
callback is run after the dropper. -/
structure Accounted (result : PendingTable Key × List (ClosureCall Key)) : Prop where
  once : ∀ serial, droppers serial result.2 + result.1.serials.count serial =
    if serial < result.1.calls then 1 else 0
  order : result.2.Pairwise fun earlier later ↦ ∀ serial answer,
    earlier = .dropper serial → later ≠ .callback serial answer

theorem runTable_accounted (events : List (QueryEvent Key)) :
    Accounted (runTable ops .init events) := by
  induction events using List.reverseRecOn with
  | nil => exact ⟨by simp [droppers, PendingTable.serials, PendingTable.init], List.Pairwise.nil⟩
  | append_singleton events e ih =>
    have hspec := stepTable_spec ops (runTable ops .init events).1 e
    rw [runTable_snoc]
    have hcreated : e.created = 0 ∨ e.created = 1 := by cases e <;> simp [QueryEvent.created]
    refine ⟨fun serial ↦ ?_, pairwise_append.mpr ⟨ih.order, hspec.order, ?_⟩⟩
    · have honce := ih.once serial
      have hstep := hspec.accounts serial
      rw [droppers_append, hspec.calls]
      dsimp only
      split_ifs at honce hstep ⊢ <;> omega
    · rintro earlier hearlier later hlater serial answer rfl rfl
      have honce := ih.once serial
      have hdropped : 0 < droppers serial (runTable ops .init events).2 :=
        count_pos_iff.mpr hearlier
      have hpending := count_pos_iff.mpr (hspec.pending serial answer hlater)
      split_ifs at honce <;> omega

variable {ops}

theorem Accounted.serials_nodup {result : PendingTable Key × List (ClosureCall Key)}
    (h : Accounted result) : result.1.serials.Nodup := by
  refine nodup_iff_count_le_one.mpr fun serial ↦ ?_
  have honce := h.once serial
  split_ifs at honce <;> omega

omit [DecidableEq Key] in
theorem freshQueries_append {before after : List (QueryEvent Key)} :
    ∀ {zn : PendingTable Key}, FreshQueries ops zn (before ++ after) → FreshQueries ops zn before ∧
        FreshQueries ops (runTable ops zn before).1 after := by
  induction before with
  | nil => exact fun h ↦ ⟨trivial, h⟩
  | cons e before ih =>
    intro zn h
    obtain ⟨hbefore, hafter⟩ := ih h.2
    refine ⟨⟨h.1, hbefore⟩, ?_⟩
    rw [runTable_cons]
    exact hafter

variable {events : List (QueryEvent Key)}

omit [DecidableEq Key] in
theorem runTable_ids_nodup : ∀ {zn : PendingTable Key}, zn.ids.Nodup → FreshQueries ops zn events →
      (runTable ops zn events).1.ids.Nodup := by
  induction events with
  | nil => exact fun hids _ ↦ hids
  | cons e events ih =>
    intro zn hids hfresh
    rw [runTable_cons]
    exact ih (stepTable_ids_nodup ops hids hfresh.1) hfresh.2

theorem calls_le_stepTable (zn : PendingTable Key) (e : QueryEvent Key) :
    zn.calls ≤ (stepTable ops zn e).1.calls :=
  (stepTable_spec ops zn e).calls ▸ Nat.le_add_right _ _

/-- The finals of a run are counted. -/
theorem Counted.run {serial : ℕ} {n : ℕ} :
    ∀ {zn : PendingTable Key} {k : ℕ}, Counted zn serial id n k → zn.ids.Nodup →
      serial < zn.calls → FreshQueries ops zn events →
      Counted (runTable ops zn events).1 serial id n (k + events.count (.final id)) := by
  induction events with
  | nil => exact fun h _ _ _ ↦ h
  | cons e events ih =>
    intro zn k h hids hserial hfresh
    rw [runTable_cons]
    have hcount : k + (e :: events).count (.final id) =
        k + (if e = .final id then 1 else 0) + events.count (.final id) := by
      rw [count_cons]
      by_cases he : e = .final id
      · rw [if_pos (by simpa using he), if_pos he]
        omega
      · rw [if_neg (by simpa using he), if_neg he]
        omega
    rw [hcount]
    exact ih (h.step hids hserial e) (stepTable_ids_nodup ops hids hfresh.1)
      (Nat.lt_of_lt_of_le hserial (calls_le_stepTable zn e)) hfresh.2

/-- What a session does with its queries in a run: every query has its dropper run once, when it
leaves the pending queries, and no callback afterwards. A final drops a query when it is the last
of those that the query expects, and a query that expects none is not registered. -/
structure Lifecycle (ops : KeyexprOps Key) (events : List (QueryEvent Key)) : Prop where
  dropped : ∀ serial < (runTable ops .init events).1.calls,
    droppers serial (runTable ops .init events).2 =
      if serial ∈ (runTable ops .init events).1.serials then 0 else 1
  leaves : ∀ before e after, events = before ++ e :: after →
    ∀ serial ∈ (runTable ops .init before).1.serials,
      droppers serial (stepTable ops (runTable ops .init before).1 e).2 =
        if serial ∈ (stepTable ops (runTable ops .init before).1 e).1.serials then 0
        else 1
  silent : (runTable ops .init events).2.Pairwise fun earlier later ↦ ∀ serial answer,
    earlier = .dropper serial → later ≠ .callback serial answer
  finalized : ∀ before querierId key anyke consolidation allowedDestination timeout now peersCount
    between id after,
    events = before ++ .query querierId key anyke consolidation allowedDestination timeout now
      peersCount true :: (between ++ .final id :: after) →
    ∀ zn zn', zn = (runTable ops .init before).1 →
      zn' = (runTable ops .init (before ++ .query querierId key anyke consolidation
        allowedDestination timeout now peersCount true :: between)).1 →
      zn.isClosed = false → expectedFinals allowedDestination peersCount ≠ 0 →
      (.dropper zn.calls ∈ (stepTable ops zn' (.final id)).2 ↔
        id = zn.queryId ∧ zn.calls ∈ zn'.serials ∧ zn'.isClosed = false ∧
          between.count (.final zn.queryId) + 1 = expectedFinals allowedDestination peersCount)
  unregistered : ∀ before querierId key anyke consolidation allowedDestination timeout now
    peersCount sent after,
    events = before ++ .query querierId key anyke consolidation allowedDestination timeout now
      peersCount sent :: after → expectedFinals allowedDestination peersCount = 0 →
    ∀ zn, zn = (runTable ops .init before).1 →
      (stepTable ops zn (.query querierId key anyke consolidation allowedDestination timeout
        now peersCount sent)).2 = [.dropper zn.calls] ∧
      (stepTable ops zn (.query querierId key anyke consolidation allowedDestination timeout
        now peersCount sent)).1.pendingQueries = zn.pendingQueries

/-- A query that has just been registered waits for all of its finals. -/
theorem counted_query (ops : KeyexprOps Key) {zn : PendingTable Key}
    {result : PendingTable Key × List (ClosureCall Key)} (haccounted : Accounted result)
    (hzn : zn = result.1) (hopen : zn.isClosed = false)
    (querierId : Option UInt32) (key : Key) (anyke : Bool) (consolidation : ConsolidationMode)
    {allowedDestination : Locality} (timeout : UInt64) (now : ℕ) {peersCount : ℕ}
    (hne : expectedFinals allowedDestination peersCount ≠ 0)
    (hlt : expectedFinals allowedDestination peersCount < UInt32.size) :
    Counted (stepTable ops zn (.query querierId key anyke consolidation allowedDestination
      timeout now peersCount true)).1 zn.calls zn.queryId
      (expectedFinals allowedDestination peersCount) 0 := by
  have htoNat : (expectedFinals allowedDestination peersCount).toUInt32.toNat =
      expectedFinals allowedDestination peersCount := Nat.mod_eq_of_lt hlt
  intro pq hpq hserial
  simp only [stepTable, PendingTable.query, hopen, hne, decide_false, Bool.or_self,
    Bool.false_eq_true, if_false, if_true, mem_cons] at hpq
  rcases hpq with rfl | hold
  · exact ⟨rfl, by simp only [htoNat]; omega, fun _ ↦ by simp only [htoNat, Nat.add_zero]⟩
  · have honce := haccounted.once zn.calls
    have hpos : 0 < result.1.serials.count zn.calls :=
      count_pos_iff.mpr (hserial ▸ mem_map_of_mem (hzn ▸ hold))
    rw [hzn] at honce hpos
    rw [if_neg (Nat.lt_irrefl _)] at honce
    omega

/-- In every run in which the queries are given fresh numbers, the queries live as they should. -/
theorem lifecycle_of_freshQueries (events : List (QueryEvent Key))
    (h : FreshQueries ops .init events) : Lifecycle ops events where
  dropped := by
    intro serial hserial
    have haccounted := runTable_accounted ops events
    have honce := haccounted.once serial
    rw [if_pos hserial, haccounted.serials_nodup.count] at honce
    split_ifs at honce ⊢ <;> omega
  leaves := by
    rintro before e after rfl serial hserial
    have hbefore := (runTable_accounted ops before).serials_nodup
    have hafter := (runTable_accounted ops (before ++ [e])).serials_nodup
    rw [runTable_snoc] at hafter
    have haccounts :=
      (stepTable_spec ops (runTable ops .init before).1 e).accounts serial
    have honce := (runTable_accounted ops before).once serial
    rw [hafter.count, hbefore.count, if_pos hserial] at haccounts
    rw [hbefore.count, if_pos hserial] at honce
    split_ifs at haccounts honce ⊢ <;> omega
  silent := (runTable_accounted ops events).order
  finalized := by
    rintro before querierId key anyke consolidation allowedDestination timeout now peersCount between
      id after rfl zn zn' hzn hzn' hopen hne
    obtain ⟨hfreshBefore, hfreshQuery, hfreshAfter⟩ := freshQueries_append h
    obtain ⟨hfreshBetween, -⟩ := freshQueries_append hfreshAfter
    rw [← hzn] at hfreshQuery hfreshBetween
    rw [runTable_append, runTable_cons] at hzn'
    simp only [← hzn] at hzn'
    have hids : zn.ids.Nodup := hzn ▸ runTable_ids_nodup nodup_nil hfreshBefore
    have hidsQuery := stepTable_ids_nodup ops hids hfreshQuery
    have hcounted := (counted_query ops
      (runTable_accounted ops before) hzn hopen querierId key anyke consolidation timeout now
      hne hfreshQuery.1).run hidsQuery (by
        rw [(stepTable_spec ops zn _).calls]
        exact Nat.lt_succ_self _) hfreshBetween
    have hids' : zn'.ids.Nodup := hzn' ▸ runTable_ids_nodup hidsQuery hfreshBetween
    rw [← hzn', Nat.zero_add] at hcounted
    rw [mem_final_iff]
    constructor
    · rintro ⟨pq, hholds, hfinals, hserial⟩
      have hmem := mem_of_find?_eq_some hholds.found
      obtain ⟨hid, hpos, hcount⟩ := hcounted pq hmem hserial
      have hremaining := hcount hholds.isOpen
      exact ⟨hholds.id_eq.symm.trans hid, hserial ▸ mem_map_of_mem hmem, hholds.isOpen, by omega⟩
    · rintro ⟨rfl, hserial, hopen', hcount⟩
      obtain ⟨pq, hpq, hpqSerial⟩ := mem_map.mp hserial
      obtain ⟨hid, hpos, hremaining⟩ := hcounted pq hpq hpqSerial
      have hfinals := hremaining hopen'
      exact ⟨pq, ⟨hopen', find?_of_mem hids' hpq hid⟩, by omega, hpqSerial⟩
  unregistered := by
    rintro before querierId key anyke consolidation allowedDestination timeout now peersCount sent
      after rfl hzero zn -
    simp [stepTable, PendingTable.query, hzero]

end Runs

/-! ### A number that is used again -/

/-- A query to one peer, which is sent or not -/
def peerQuery (sent : Bool) : QueryEvent ℕ := .query none 0 false .none .remote 10000 0 1 sent

theorem lifecycle_two_finals :
    Lifecycle .exact [.query none 0 false .latest .any 10000 0 1 true, .reply 1 ⟨0, 5, []⟩,
      .final 1, .final 1] :=
  lifecycle_of_freshQueries _ ⟨⟨by decide, by decide⟩, trivial, trivial, trivial, trivial⟩

/-- Queries that cannot be sent use up their numbers. -/
theorem runTable_unsent (k : ℕ) : ∀ {zn : PendingTable ℕ}, zn.isClosed = false →
      (runTable .exact zn (List.replicate k (peerQuery false))).1 =
        { zn with queryId := zn.queryId + UInt64.ofNat k, calls := zn.calls + k } := by
  induction k with
  | zero =>
    intro zn _
    simp
  | succ k ih =>
    intro zn hopen
    have hstep : (stepTable .exact zn (peerQuery false)).1 =
        { zn with queryId := zn.queryId + 1, calls := zn.calls + 1 } := by
      simp [peerQuery, stepTable, PendingTable.query, expectedFinals, Locality.allowsLocal,
        Locality.allowsRemote, PendingTable.dropFirst, hopen]
    rw [replicate_succ, runTable_cons, hstep]
    dsimp only
    have hid : zn.queryId + 1 + UInt64.ofNat k = zn.queryId + UInt64.ofNat (k + 1) := by
      rw [UInt64.ofNat_add, UInt64.add_assoc, UInt64.add_comm (UInt64.ofNat k)]
      rfl
    rw [ih (by exact hopen), ← hid]
    simp only [Nat.add_assoc, Nat.add_comm 1 k]

/-- A query waits for a final while `k` more use up their numbers, and then there is another one. -/
def wrappingRun (k : ℕ) : List (QueryEvent ℕ) :=
  List.replicate k (peerQuery false) ++ [peerQuery true]

/-- Where the last query gets the number of the first one, the final that the first one expects
drops the last one. -/
theorem not_lifecycle_of_wrapped {k : ℕ} (hk : 2 + UInt64.ofNat k = 1) :
    ¬Lifecycle .exact (peerQuery true :: (wrappingRun k ++ [.final 1])) := by
  intro h
  have hrun : (runTable .exact .init (peerQuery true :: wrappingRun k)).1 =
      ⟨false, 2, [⟨1, none, 0, false, .none, 10000, 0, 1, [], 1 + k⟩,
        ⟨1, none, 0, false, .none, 10000, 0, 1, [], 0⟩], 1 + k + 1⟩ := by
    rw [wrappingRun, runTable_cons, runTable_snoc, runTable_unsent k rfl]
    have hfirst : (stepTable .exact (.init : PendingTable ℕ) (peerQuery true)).1 =
      ⟨false, 2, [⟨1, none, 0, false, .none, 10000, 0, 1, [], 0⟩], 1⟩ := rfl
    dsimp only
    rw [hfirst]
    dsimp only
    rw [hk]
    rfl
  have hcount : (wrappingRun k).count (.final 1) = 0 := by
    refine count_eq_zero.mpr fun hmem ↦ ?_
    rcases mem_append.mp hmem with hmem | hmem
    · cases eq_of_mem_replicate hmem
    · cases mem_singleton.mp hmem
  have hfinalized := h.finalized [] none 0 false .none .remote 10000 0 1 (wrappingRun k) 1 [] rfl
    .init _ rfl rfl rfl (by decide)
  rw [nil_append, ← peerQuery, hrun] at hfinalized
  have hdropper := hfinalized.mpr ⟨rfl, by simp [PendingTable.serials, PendingTable.init], rfl, by
    rw [show (PendingTable.init : PendingTable ℕ).queryId = 1 from rfl, hcount]
    rfl⟩
  have hholds : PendingTable.Holds (⟨false, 2, [⟨1, none, 0, false, .none, 10000, 0, 1, [], 1 + k⟩,
      ⟨1, none, 0, false, .none, 10000, 0, 1, [], 0⟩], 1 + k + 1⟩ : PendingTable ℕ) 1
      ⟨1, none, 0, false, .none, 10000, 0, 1, [], 1 + k⟩ := ⟨rfl, rfl⟩
  rw [hholds.stepTable_last .exact (Nat.le_refl 1)] at hdropper
  have hserial := ClosureCall.dropper.inj (mem_singleton.mp hdropper)
  simp only [PendingTable.init] at hserial
  omega

/-- All other numbers are used up. -/
theorem lifecycle_not_wrapped : ¬ ∀ events : List (QueryEvent ℕ), Lifecycle .exact events :=
  fun h ↦ not_lifecycle_of_wrapped (k := 2 ^ 64 - 1) (by decide) (h _)

end ZenohPico.Session
