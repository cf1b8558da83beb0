import Mathlib.Data.List.Find
import Mathlib.Data.List.Infix
import ZenohPico.Foundations.Latest
import ZenohPico.Session.PendingQueries

/-!
Consolidation of the replies to a query (`_z_trigger_query_reply_partial_inner` and
`_z_trigger_query_reply_final` of `src/session/query.c`).

In the mode LATEST a query keeps the latest reply of every key for its last final. The reply that
a newer one replaces is searched by its key and removed by its timestamp, so that a reply of
another key with the same timestamp may go in its place. Once that has happened, the stored
replies never again are one for each key. And a key for which the comparison takes another one that
is stored has no reply of its own (`latest_delivers_iff`).

In the mode MONOTONIC the code decides whether a reply is newer than those of its key, and then
runs the callback in any case (`monotonic_delivers_iff`).
-/

namespace ZenohPico.Session

open Foundations List

/-! ### The stored replies -/

section Store

variable {Key : Type}

/-- The time of a reply, as a number -/
def Reply.timeNat (reply : Reply Key) : ℕ := reply.time.toNat

variable [DecidableEq Key]

/-- The stored reply that `reply` replaces is not the first one with its time. -/
def Clash (pendingReplies : List (Reply Key)) (reply : Reply Key) : Prop :=
  ∃ same ∈ pendingReplies, same.key = reply.key ∧ same.time < reply.time ∧
    pendingReplies.find? (·.time = same.time) ≠ some same

/-- No reply of a history, the newest first, clashes with the latest replies before it. -/
def NoClash : List (Reply Key) → Prop
  | [] => True
  | reply :: older => NoClash older ∧ ¬Clash (latest Reply.key Reply.timeNat older) reply

variable {pendingReplies : List (Reply Key)} {reply : Reply Key}

/-- Where the time of a stored reply is no other one's before it, it is the one to be removed. -/
theorem eraseP_time_eq_filter (h : (pendingReplies.map Reply.key).Nodup) {same : Reply Key}
    (hfind : pendingReplies.find? (·.time = same.time) = some same) :
    pendingReplies.eraseP (·.time = same.time) = pendingReplies.filter (·.key ≠ same.key) := by
  induction pendingReplies with
  | nil => cases hfind
  | cons first rest ih =>
    rw [map_cons, nodup_cons] at h
    by_cases htime : first.time = same.time
    · rw [List.find?_cons_of_pos (by simpa using htime), Option.some.injEq] at hfind
      subst hfind
      rw [eraseP_cons_of_pos (by simp), filter_cons_of_neg (by simp)]
      refine (filter_eq_self.mpr fun other hother ↦ ?_).symm
      simpa using fun heq : other.key = first.key ↦ h.1 (heq ▸ mem_map_of_mem hother)
    · rw [List.find?_cons_of_neg (by simpa using htime)] at hfind
      have hne : first.key ≠ same.key := fun heq ↦
        h.1 (heq ▸ mem_map_of_mem (mem_of_find?_eq_some hfind))
      rw [eraseP_cons_of_neg (by simpa using htime), filter_cons_of_pos (by simpa using hne),
        ih h.2 hfind]

/-- Without a clash the latest replies are kept. -/
theorem storeReply_latest {older : List (Reply Key)}
    (hclash : ¬Clash (latest Reply.key Reply.timeNat older) reply) :
    storeReply .exact .latest (latest Reply.key Reply.timeNat older) reply =
      latest Reply.key Reply.timeNat (reply :: older) := by
  have hnodup : ((latest Reply.key Reply.timeNat older).map Reply.key).Nodup := latest_nodup
  rw [latest]
  generalize latest Reply.key Reply.timeNat older = stored at hclash hnodup ⊢
  simp only [storeReply, KeyexprOps.exact, reduceCtorEq, if_false]
  cases hfind : stored.find? (·.key = reply.key) with
  | none =>
    have hnone : ∀ other ∈ stored, other.key ≠ reply.key := by
      simpa using List.find?_eq_none.mp hfind
    rw [if_neg, filter_eq_self.mpr (by simpa using hnone)]
    rintro ⟨other, hother, hkey, -⟩
    exact hnone other hother hkey
  | some same =>
    have hsame : same ∈ stored := mem_of_find?_eq_some hfind
    have hkey : same.key = reply.key := by simpa using List.find?_some hfind
    by_cases hstale : reply.time ≤ same.time
    · simp only [if_pos hstale]
      rw [if_pos ⟨same, hsame, hkey, UInt64.le_iff_toNat_le.mp hstale⟩]
    · have hnewer : same.time < reply.time := UInt64.not_le.mp hstale
      have hfirst : stored.find? (·.time = same.time) = some same := by
        by_contra hne
        exact hclash ⟨same, hsame, hkey, hnewer, hne⟩
      simp only [if_neg hstale]
      rw [if_neg, eraseP_time_eq_filter hnodup hfirst, hkey]
      rintro ⟨other, hother, hother', htime⟩
      rw [inj_on_of_nodup_map hnodup hother hsame (hother'.trans hkey.symm)] at htime
      exact hstale (UInt64.le_iff_toNat_le.mpr htime)

/-- A clash leaves two replies of one key. -/
theorem storeReply_clash (h : (pendingReplies.map Reply.key).Nodup)
    (hclash : Clash pendingReplies reply) :
    ¬((storeReply .exact .latest pendingReplies reply).map Reply.key).Nodup := by
  obtain ⟨same, hsame, hkey, hnewer, hfirst⟩ := hclash
  simp only [storeReply, KeyexprOps.exact, reduceCtorEq, if_false, find?_of_mem h hsame hkey,
    if_neg (UInt64.not_le.mpr hnewer)]
  obtain ⟨removed, before, after, hbefore, htime, hlist, hrest⟩ :=
    exists_of_eraseP (p := (·.time = same.time)) hsame (by simp)
  have hremoved : removed ≠ same := by
    rintro rfl
    rw [hlist, List.find?_append, List.find?_eq_none.mpr (by simpa using hbefore)] at hfirst
    simp at hfirst
  rw [hrest, map_cons, nodup_cons, ← hkey]
  refine fun hnodup ↦ hnodup.1 (mem_map_of_mem ?_)
  rw [hlist, mem_append, mem_cons] at hsame
  rcases hsame with hmem | heq | hmem
  · exact mem_append_left _ hmem
  · exact absurd heq.symm hremoved
  · exact mem_append_right _ hmem

/-- Two replies of one key stay. -/
theorem storeReply_not_nodup (h : ¬(pendingReplies.map Reply.key).Nodup) :
    ¬((storeReply .exact .latest pendingReplies reply).map Reply.key).Nodup := by
  simp only [storeReply, KeyexprOps.exact, reduceCtorEq, if_false]
  cases hfind : pendingReplies.find? (·.key = reply.key) with
  | none => exact fun hnodup ↦ h (nodup_cons.mp hnodup).2
  | some same =>
    by_cases hstale : reply.time ≤ same.time
    · simpa only [if_pos hstale] using h
    · simp only [if_neg hstale]
      have hsame : same ∈ pendingReplies := mem_of_find?_eq_some hfind
      obtain ⟨removed, before, after, hbefore, htime, hlist, hrest⟩ :=
        exists_of_eraseP (p := (·.time = same.time)) hsame (by simp)
      rw [hrest, map_cons, nodup_cons]
      rintro ⟨hfresh, hnodup⟩
      -- no other reply of the key is left, so the removed one was the only one
      have hkey : removed.key = reply.key := by
        rw [hlist, mem_append, mem_cons] at hsame
        have hsameKey : same.key = reply.key := by simpa using List.find?_some hfind
        rcases hsame with hmem | rfl | hmem
        · exact absurd (hsameKey ▸ mem_map_of_mem (mem_append_left _ hmem)) hfresh
        · exact hsameKey
        · exact absurd (hsameKey ▸ mem_map_of_mem (mem_append_right _ hmem)) hfresh
      apply h
      rw [hlist]
      refine (perm_middle.map Reply.key).nodup_iff.mpr ?_
      rw [map_cons, nodup_cons, hkey]
      exact ⟨hfresh, hnodup⟩

/-- The stored replies after a history of replies, the newest first -/
def storedAfter (ops : KeyexprOps Key) (older : List (Reply Key)) : List (Reply Key) :=
  older.foldr (fun reply stored ↦ storeReply ops .latest stored reply) []

theorem storedAfter_eq_latest {older : List (Reply Key)} (h : NoClash older) :
    storedAfter .exact older = latest Reply.key Reply.timeNat older := by
  induction older with
  | nil => rfl
  | cons reply older ih =>
    rw [storedAfter, foldr_cons, ← storedAfter, ih h.1, storeReply_latest h.2]

theorem noClash_of_nodup {older : List (Reply Key)}
    (h : ((storedAfter .exact older).map Reply.key).Nodup) : NoClash older := by
  induction older with
  | nil => trivial
  | cons reply older ih =>
    rw [storedAfter, foldr_cons, ← storedAfter] at h
    have hnodup : ((storedAfter .exact older).map Reply.key).Nodup := by
      by_contra hnot
      exact storeReply_not_nodup hnot h
    refine ⟨ih hnodup, fun hclash ↦ ?_⟩
    rw [← storedAfter_eq_latest (ih hnodup)] at hclash
    exact storeReply_clash hnodup hclash h

/-! ### Keys that compare equal -/

variable {ops : KeyexprOps Key} {older : List (Reply Key)}

theorem storeReply_eq_exact (h : ops.Separates ((reply :: pendingReplies).map Reply.key)) :
    storeReply ops .latest pendingReplies reply = storeReply .exact .latest pendingReplies reply := by
  have hfind : pendingReplies.find? (ops.equals ·.key reply.key) =
      pendingReplies.find? (·.key = reply.key) := by
    refine List.find?_congr fun same hsame ↦ ?_
    by_cases hkey : same.key = reply.key
    · rw [hkey, ops.equals_refl, decide_eq_true rfl]
    · rw [decide_eq_false hkey]
      refine Bool.eq_false_iff.mpr fun hequals ↦ hkey ?_
      exact h _ (mem_map_of_mem (mem_cons_of_mem _ hsame)) _
        (mem_map_of_mem mem_cons_self) hequals
  rw [storeReply, storeReply, hfind]
  rfl

omit [DecidableEq Key] in
theorem mem_storeReply {stored : Reply Key}
    (h : stored ∈ storeReply ops .latest pendingReplies reply) :
    stored ∈ reply :: pendingReplies := by
  simp only [storeReply, reduceCtorEq, if_false] at h
  split at h
  · exact h
  · split at h
    · exact mem_cons_of_mem _ h
    · exact (List.Sublist.cons_cons reply eraseP_sublist).subset h

omit [DecidableEq Key] in
/-- What is stored has been received. -/
theorem storedAfter_subset : storedAfter ops older ⊆ older := by
  induction older with
  | nil => exact List.Subset.refl _
  | cons reply older ih =>
    intro stored hstored
    rw [storedAfter, foldr_cons, ← storedAfter] at hstored
    rcases mem_cons.mp (mem_storeReply hstored) with rfl | hstored
    · exact mem_cons_self
    · exact mem_cons_of_mem _ (ih hstored)

omit [DecidableEq Key] in
theorem KeyexprOps.Separates.subset {keys keys' : List Key} (h : ops.Separates keys)
    (hsubset : keys' ⊆ keys) : ops.Separates keys' :=
  fun key hkey other hother ↦ h key (hsubset hkey) other (hsubset hother)

/-- Keys that are told apart are compared as they are. -/
theorem storedAfter_eq_exact (h : ops.Separates (older.map Reply.key)) :
    storedAfter ops older = storedAfter .exact older := by
  induction older with
  | nil => rfl
  | cons reply older ih =>
    have hrest := ih (h.subset (subset_cons_self _ _))
    have hsubset : storedAfter .exact older ⊆ older := storedAfter_subset
    have hstep : ops.Separates ((reply :: storedAfter .exact older).map Reply.key) :=
      h.subset (map_subset _ (cons_subset_cons reply hsubset))
    rw [storedAfter, foldr_cons, ← storedAfter, hrest, storeReply_eq_exact hstep]
    rfl

/-- Where keys are told apart, the stored replies are the latest ones of each key exactly when no
reply clashed. -/
theorem storedAfter_latestOf_iff (h : ops.Separates (older.map Reply.key)) :
    LatestOf Reply.key Reply.timeNat older (storedAfter ops older) ↔ NoClash older := by
  rw [storedAfter_eq_exact h]
  exact ⟨fun h ↦ noClash_of_nodup h.nodup, fun h ↦ storedAfter_eq_latest h ▸ latest_latestOf⟩

/-- A reply whose key is taken for another one is not stored, or another reply is lost for it. -/
theorem not_latestOf_of_not_separates (hseparates : ops.Separates (older.map Reply.key))
    (hlatest : LatestOf Reply.key Reply.timeNat older (storedAfter ops older))
    (h : ¬ ops.Separates ((reply :: older).map Reply.key)) :
    ¬ LatestOf Reply.key Reply.timeNat (reply :: older) (storedAfter ops (reply :: older)) := by
  have hsubset : storedAfter ops older ⊆ older := storedAfter_subset
  obtain ⟨taken, htaken, hequals, hne⟩ :
      ∃ taken ∈ older, ops.equals taken.key reply.key = true ∧ taken.key ≠ reply.key := by
    by_contra hnone
    push Not at hnone
    refine h fun key hkey other hother hequals ↦ ?_
    rw [map_cons, mem_cons] at hkey hother
    rcases hkey with rfl | hkey <;> rcases hother with rfl | hother
    · rfl
    · obtain ⟨taken, htaken, rfl⟩ := mem_map.mp hother
      exact (hnone taken htaken (ops.equals_symm _ _ hequals)).symm
    · obtain ⟨taken, htaken, rfl⟩ := mem_map.mp hkey
      exact hnone taken htaken hequals
    · exact hseparates _ hkey _ hother hequals
  have hnew : ∀ other ∈ older, other.key ≠ reply.key := by
    intro other hother hkey
    refine hne ((hseparates _ (mem_map_of_mem htaken) _ (mem_map_of_mem hother) ?_).trans
      hkey)
    rwa [hkey]
  obtain ⟨kept, hkept, hkeptKey⟩ := hlatest.covers taken htaken
  rw [storedAfter, foldr_cons, ← storedAfter]
  simp only [storeReply, reduceCtorEq, if_false]
  cases hfind : (storedAfter ops older).find? (ops.equals ·.key reply.key) with
  | none =>
    have hnone := List.find?_eq_none.mp hfind kept hkept
    rw [hkeptKey] at hnone
    exact absurd hequals hnone
  | some same =>
    have hsame : same ∈ storedAfter ops older := mem_of_find?_eq_some hfind
    by_cases hstale : reply.time ≤ same.time
    · simp only [if_pos hstale]
      rintro ⟨-, -, hcovers⟩
      obtain ⟨other, hother, hkey⟩ := hcovers reply mem_cons_self
      exact hnew other (hsubset hother) hkey
    · simp only [if_neg hstale]
      obtain ⟨removed, before, after, -, -, hlist, hrest⟩ :=
        exists_of_eraseP (p := (·.time = same.time)) hsame (by simp)
      have hremoved : removed ∈ storedAfter ops older := by
        rw [hlist]
        exact mem_append_right _ mem_cons_self
      rintro ⟨-, -, hcovers⟩
      obtain ⟨other, hother, hkey⟩ :=
        hcovers removed (mem_cons_of_mem _ (hsubset hremoved))
      rcases mem_cons.mp hother with rfl | hother
      · exact hnew removed (hsubset hremoved) hkey.symm
      · have hnodup := hlatest.nodup
        rw [hlist] at hnodup
        have hunique := (perm_middle.map Reply.key).nodup_iff.mp hnodup
        rw [map_cons, nodup_cons] at hunique
        rw [hrest] at hother
        exact hunique.1 (hkey ▸ mem_map_of_mem hother)

/-- After every part of a history the stored replies are the latest ones of each key exactly when
keys are told apart and no reply clashed. -/
theorem storedAfter_suffixes_iff : (∀ earlier, earlier <:+ older →
        LatestOf Reply.key Reply.timeNat earlier (storedAfter ops earlier)) ↔
      ops.Separates (older.map Reply.key) ∧ NoClash older := by
  constructor
  · intro h
    have hseparates : ops.Separates (older.map Reply.key) := by
      induction older with
      | nil => exact fun key hkey ↦ nomatch hkey
      | cons reply older ih =>
        have hrest := ih fun earlier hearlier ↦ h earlier (hearlier.trans (suffix_cons _ _))
        by_contra hnot
        exact not_latestOf_of_not_separates hrest (h older (suffix_cons _ _)) hnot
          (h _ suffix_rfl)
    exact ⟨hseparates, (storedAfter_latestOf_iff hseparates).mp (h older suffix_rfl)⟩
  · rintro ⟨hseparates, hclash⟩ earlier hearlier
    have hpart : ops.Separates (earlier.map Reply.key) :=
      hseparates.subset (map_subset _ hearlier.subset)
    refine (storedAfter_latestOf_iff hpart).mpr ?_
    induction older with
    | nil =>
      rw [suffix_nil.mp hearlier]
      trivial
    | cons reply older ih =>
      rcases suffix_cons_iff.mp hearlier with rfl | hearlier
      · exact hclash
      · exact ih (hseparates.subset (subset_cons_self _ _)) hclash.1 hearlier

end Store

/-! ### The answers to a query -/

section Answers

variable {Key : Type}

/-- An answer under the number of a query: a reply, or else a final -/
def answerEvent (id : UInt64) : Option (Reply Key) → QueryEvent Key
  | some reply => .reply id reply
  | none => .final id

/-- The replies among some answers that a query accepts -/
def RegisteredQuery.accepted (ops : KeyexprOps Key) (pq : RegisteredQuery Key)
    (answers : List (Option (Reply Key))) : List (Reply Key) :=
  (answers.filterMap fun answer ↦ answer).filter (pq.accepts ops)

/-- The finals among some answers -/
def finals (answers : List (Option (Reply Key))) : ℕ := answers.countP Option.isNone

variable {ops : KeyexprOps Key} {zn : PendingTable Key} {id : UInt64}
  {pq : RegisteredQuery Key}

/-- The replies that a query's callback is run for -/
def deliveredReplies (serial : ℕ) (calls : List (ClosureCall Key)) : List (Reply Key) :=
  calls.filterMap fun
    | .callback s (.data reply) => if s = serial then some reply else none
    | _ => none

theorem deliveredReplies_map (serial : ℕ) (replies : List (Reply Key)) :
    deliveredReplies serial (replies.map (.callback serial <| .data ·)) = replies := by
  induction replies with
  | nil => rfl
  | cons reply replies ih => simp [deliveredReplies]

/-- A reply is stored and given to the callback, as the mode of the query says. -/
theorem PendingTable.Holds.reply (h : zn.Holds id pq) {reply : Reply Key}
    (haccepts : pq.accepts ops reply = true) :
    (stepTable ops zn (.reply id reply)).1.Holds id { pq with
        pendingReplies := if pq.consolidation = .none then pq.pendingReplies
          else storeReply ops pq.consolidation pq.pendingReplies reply } ∧
      (stepTable ops zn (.reply id reply)).2 =
        if pq.consolidation ≠ .latest then [.callback pq.serial (.data reply)] else [] := by
  have hstep : stepTable ops zn (.reply id reply) = ({ zn with
        pendingQueries := updateFirst (·.id = id) ({ · with
          pendingReplies := if pq.consolidation = .none then pq.pendingReplies
            else storeReply ops pq.consolidation pq.pendingReplies reply }) zn.pendingQueries },
      if pq.consolidation ≠ .latest then [.callback pq.serial (.data reply)] else []) := by
    simp only [stepTable, PendingTable.replyPartial, h.isOpen, h.found, haccepts]
    rfl
  rw [hstep]
  exact ⟨⟨h.isOpen, find?_updateFirst h.found (by simpa using h.id_eq)⟩, rfl⟩

theorem stepTable_reply_of_not_accepts (h : zn.Holds id pq) {reply : Reply Key}
    (haccepts : pq.accepts ops reply = false) : stepTable ops zn (.reply id reply) = (zn, []) := by
  simp only [stepTable, PendingTable.replyPartial, h.isOpen, h.found, haccepts]
  rfl

/-- What a query has stored after some answers, and which calls they have brought about -/
theorem runTable_answers (ops : KeyexprOps Key) (answers : List (Option (Reply Key))) :
    ∀ {zn : PendingTable Key} {pq : RegisteredQuery Key}, zn.Holds id pq →
      finals answers + 1 ≤ max 1 pq.remainingFinals.toNat → ∃ remainingFinals : UInt32,
        remainingFinals.toNat = pq.remainingFinals.toNat - finals answers ∧
        (runTable ops zn (answers.map (answerEvent id))).1.Holds id { pq with
          remainingFinals
          pendingReplies := (pq.accepted ops answers).foldl
            (fun stored reply ↦ if pq.consolidation = .none then stored
              else storeReply ops pq.consolidation stored reply) pq.pendingReplies } ∧
        (runTable ops zn (answers.map (answerEvent id))).2 =
          if pq.consolidation ≠ .latest then
            (pq.accepted ops answers).map (.callback pq.serial <| .data ·) else [] := by
  induction answers with
  | nil =>
    intro zn pq h _
    refine ⟨pq.remainingFinals, rfl, h, ?_⟩
    simp [RegisteredQuery.accepted]
  | cons answer answers ih =>
    intro zn pq h hfinals
    cases answer with
    | none =>
      have hcount : finals (none :: answers) = finals answers + 1 := by simp [finals]
      have hone : 1 < pq.remainingFinals.toNat := by omega
      have hsub := toNat_sub_one hone.le
      have hcalls := congrArg Prod.snd (h.stepTable_final ops hone)
      obtain ⟨remainingFinals, hremaining, hafter, hrest⟩ :=
        ih (h.final ops hone) (by simp only [hsub]; omega)
      refine ⟨remainingFinals, ?_, ?_, ?_⟩
      · rw [hremaining, hcount]
        simp only [hsub]
        omega
      · rw [map_cons, runTable_cons]
        exact hafter
      · rw [map_cons, runTable_cons, answerEvent, hcalls, nil_append]
        exact hrest
    | some reply =>
      have hcount : finals (some reply :: answers) = finals answers := by simp [finals]
      rw [hcount] at hfinals ⊢
      by_cases haccepts : pq.accepts ops reply = true
      · have haccepted : pq.accepted ops (some reply :: answers) =
            reply :: pq.accepted ops answers := by
          simp [RegisteredQuery.accepted, haccepts]
        obtain ⟨hholds, hcalls⟩ := h.reply haccepts
        obtain ⟨remainingFinals, hremaining, hafter, hrest⟩ := ih hholds hfinals
        refine ⟨remainingFinals, hremaining, ?_, ?_⟩
        · rw [map_cons, runTable_cons, haccepted, foldl_cons]
          exact hafter
        · rw [map_cons, runTable_cons, answerEvent, hcalls, hrest, haccepted]
          change _ ++ (if pq.consolidation ≠ .latest then
            (pq.accepted ops answers).map _ else []) = _
          split_ifs <;> rfl
      · have haccepted : pq.accepted ops (some reply :: answers) = pq.accepted ops answers := by
          simp [RegisteredQuery.accepted, haccepts]
        rw [haccepted, map_cons, runTable_cons, answerEvent,
          stepTable_reply_of_not_accepts h (by simpa using haccepts)]
        exact ih h hfinals

/-! ### What is delivered -/

/-- The callback is not run before the last final, and then once for each key, for the first of
its greatest replies. -/
structure DeliversLatest (ops : KeyexprOps Key) (zn : PendingTable Key) (id : UInt64)
    (pq : RegisteredQuery Key) (answers : List (Option (Reply Key))) : Prop where
  silent : (runTable ops zn (answers.map (answerEvent id))).2 = []
  delivered : ∃ replies : List (Reply Key),
    (stepTable ops (runTable ops zn (answers.map (answerEvent id))).1 (.final id)).2 =
      replies.map (.callback pq.serial <| .data ·) ++ [.dropper pq.serial] ∧
    LatestOf Reply.key Reply.timeNat (pq.accepted ops answers).reverse replies

variable {answers : List (Option (Reply Key))}

/-- The last final gives the callback what is stored. -/
theorem deliversLatest_iff (h : zn.Holds id pq) (hmode : pq.consolidation = .latest)
    (hnew : pq.pendingReplies = []) (hlast : finals answers + 1 = max 1 pq.remainingFinals.toNat) :
    DeliversLatest ops zn id pq answers ↔
      LatestOf Reply.key Reply.timeNat (pq.accepted ops answers).reverse
        (storedAfter ops (pq.accepted ops answers).reverse) := by
  obtain ⟨remainingFinals, hremaining, hholds, hcalls⟩ :=
    runTable_answers ops answers h hlast.le
  have hstored : (pq.accepted ops answers).foldl
      (fun stored reply ↦ if pq.consolidation = .none then stored
        else storeReply ops pq.consolidation stored reply) pq.pendingReplies =
      storedAfter ops (pq.accepted ops answers).reverse := by
    rw [hnew, hmode, storedAfter, foldr_reverse]
    rfl
  have hfinal := congrArg Prod.snd (hholds.stepTable_last ops (by
    simp only [hremaining]
    omega))
  simp only [hmode, if_true] at hfinal hstored
  rw [hstored] at hfinal
  constructor
  · rintro ⟨-, replies, hreplies, hlatest⟩
    rw [hfinal, append_cancel_right_eq] at hreplies
    have heq := congrArg (deliveredReplies pq.serial) hreplies
    rw [deliveredReplies_map, deliveredReplies_map] at heq
    exact heq ▸ hlatest
  · intro hlatest
    refine ⟨?_, _, hfinal, hlatest⟩
    rw [hcalls, hmode]
    rfl

/-- Accepted replies, and as many finals as are wanted before the last one -/
theorem exists_answers {replies : List (Reply Key)}
    (haccepted : ∀ reply ∈ replies, pq.accepts ops reply = true) (n : ℕ) :
    ∃ answers, finals answers = n ∧ pq.accepted ops answers = replies := by
  refine ⟨replies.map some ++ List.replicate n none, ?_, ?_⟩
  · simp [finals, countP_append, countP_map, Function.comp_def, countP_replicate]
  · simpa [RegisteredQuery.accepted, filterMap_append] using haccepted

theorem accepts_of_mem_accepted {reply : Reply Key} (h : reply ∈ pq.accepted ops answers) :
    pq.accepts ops reply = true :=
  (mem_filter.mp h).2

/-- The callback of a query in the mode LATEST is run as it should, for all accepted replies and
for any first part of them, exactly when no two of their keys compare equal and no accepted reply
replaces a reply while another one with the same time is found before it. Where no two keys compare
equal this is so for the replies as a whole. -/
theorem latest_delivers_iff [DecidableEq Key] (h : zn.Holds id pq)
    (hmode : pq.consolidation = .latest) (hnew : pq.pendingReplies = []) (answers : List (Option (Reply Key)))
    (hlast : finals answers + 1 = max 1 pq.remainingFinals.toNat) :
    ((∀ shorter : List (Option (Reply Key)), finals shorter + 1 = max 1 pq.remainingFinals.toNat →
        pq.accepted ops shorter <+: pq.accepted ops answers → DeliversLatest ops zn id pq shorter) ↔
      ops.Separates ((pq.accepted ops answers).map Reply.key) ∧
        NoClash (pq.accepted ops answers).reverse) ∧
    (ops.Separates ((pq.accepted ops answers).map Reply.key) →
      (DeliversLatest ops zn id pq answers ↔ NoClash (pq.accepted ops answers).reverse)) := by
  have hkeys : ops.Separates ((pq.accepted ops answers).reverse.map Reply.key) ↔
      ops.Separates ((pq.accepted ops answers).map Reply.key) := by
    simp [KeyexprOps.Separates]
  refine ⟨?_, fun hseparates ↦ ?_⟩
  · rw [← hkeys, ← storedAfter_suffixes_iff]
    constructor
    · intro hall earlier hearlier
      have hprefix : earlier.reverse <+: pq.accepted ops answers := by
        rwa [← reverse_suffix, reverse_reverse]
      obtain ⟨shorter, hfinals, haccepted⟩ := exists_answers (n := finals answers)
        (fun reply hreply ↦ accepts_of_mem_accepted (List.IsPrefix.subset hprefix hreply))
      have hlatest := (deliversLatest_iff h hmode hnew (hfinals ▸ hlast)).mp
        (hall shorter (hfinals ▸ hlast) (haccepted ▸ hprefix))
      rwa [haccepted, reverse_reverse] at hlatest
    · intro hall shorter hshorter hprefix
      exact (deliversLatest_iff h hmode hnew hshorter).mpr
        (hall _ (reverse_suffix.mpr hprefix))
  · rw [deliversLatest_iff h hmode hnew hlast]
    exact storedAfter_latestOf_iff (hkeys.mpr hseparates)

/-- The callback is run for replies of a key in increasing order of time, and at once for those
that are newer than all before them. -/
structure DeliversMonotonic (ops : KeyexprOps Key) (zn : PendingTable Key) (id : UInt64)
    (pq : RegisteredQuery Key) (answers : List (Option (Reply Key))) : Prop where
  increasing :
    (deliveredReplies pq.serial (runTable ops zn (answers.map (answerEvent id))).2).Pairwise
      fun earlier later ↦ earlier.key = later.key → earlier.time < later.time
  newest : ∀ before reply after, answers = before ++ some reply :: after →
    pq.accepts ops reply = true → (∀ earlier ∈ pq.accepted ops before, earlier.key = reply.key →
      earlier.time < reply.time) → (stepTable ops (runTable ops zn (before.map (answerEvent id))).1
      (.reply id reply)).2 = [.callback pq.serial (.data reply)]

/-- The callback of a query in the mode MONOTONIC is run as it should exactly when the accepted
replies of each key arrive in increasing order of time. -/
theorem monotonic_delivers_iff (h : zn.Holds id pq) (hmode : pq.consolidation = .monotonic)
    (answers : List (Option (Reply Key)))
    (hlast : finals answers + 1 ≤ max 1 pq.remainingFinals.toNat) :
    DeliversMonotonic ops zn id pq answers ↔ (pq.accepted ops answers).Pairwise
        fun earlier later ↦ earlier.key = later.key → earlier.time < later.time := by
  obtain ⟨-, -, -, hcalls⟩ := runTable_answers ops answers h hlast
  have hdelivered : deliveredReplies pq.serial
      (runTable ops zn (answers.map (answerEvent id))).2 = pq.accepted ops answers := by
    rw [hcalls, hmode, if_pos (by decide), deliveredReplies_map]
  constructor
  · intro hproperty
    exact hdelivered ▸ hproperty.increasing
  · intro hincreasing
    refine ⟨by rwa [hdelivered], fun before reply after hanswers haccepts _ ↦ ?_⟩
    have hfinals : finals before ≤ finals answers := by
      rw [hanswers]
      simp [finals, countP_append]
    obtain ⟨_, -, hholds, -⟩ := runTable_answers ops before h (by omega)
    obtain ⟨-, hcall⟩ := hholds.reply haccepts
    rw [hcall]
    simp [hmode]

end Answers

/-! ### Two keys with the same time -/

/-- A query that accepts any reply and waits for one final -/
def anyReplyQuery (consolidation : ConsolidationMode) : RegisteredQuery (List UInt8) :=
  ⟨1, none, [0x2A], true, consolidation, 10000, 0, 1, [], 0⟩

/-- The table of a session with that query -/
def anyReplyTable (consolidation : ConsolidationMode) : PendingTable (List UInt8) :=
  ⟨false, 2, [anyReplyQuery consolidation], 1⟩

theorem anyReplyTable_holds (consolidation : ConsolidationMode) :
    (anyReplyTable consolidation).Holds 1 (anyReplyQuery consolidation) := ⟨rfl, rfl⟩

/-- The comparison of keys, where only a key intersects itself -/
def byteKeys : KeyexprOps (List UInt8) := .bytes (· == ·)

/-- Replies of 'a', 'b' and again 'a', each newer than the one before -/
def newerAnswers : List (Option (Reply (List UInt8))) :=
  [some ⟨[97], 5, []⟩, some ⟨[98], 6, []⟩, some ⟨[97], 7, []⟩]

theorem latest_delivers_newer :
    (∀ shorter, finals shorter + 1 = 1 → (anyReplyQuery .latest).accepted byteKeys shorter <+:
        (anyReplyQuery .latest).accepted byteKeys newerAnswers →
      DeliversLatest byteKeys (anyReplyTable .latest) 1 (anyReplyQuery .latest) shorter) ∧
    DeliversLatest byteKeys (anyReplyTable .latest) 1 (anyReplyQuery .latest) newerAnswers := by
  have hseparates : byteKeys.Separates
      (((anyReplyQuery .latest).accepted byteKeys newerAnswers).map Reply.key) := by decide
  have hclash : NoClash ((anyReplyQuery .latest).accepted byteKeys newerAnswers).reverse := by
    refine ⟨⟨⟨trivial, ?_⟩, ?_⟩, ?_⟩ <;> rintro ⟨same, hsame, hkey, -, hfirst⟩
    · cases hsame
    · cases mem_singleton.mp hsame
      exact absurd hkey (by decide)
    · rcases mem_cons.mp hsame with rfl | hsame
      · exact absurd hkey (by decide)
      · cases mem_singleton.mp hsame
        exact hfirst (by decide)
  obtain ⟨hall, hwhole⟩ := latest_delivers_iff (anyReplyTable_holds .latest) rfl
    rfl newerAnswers (by decide)
  exact ⟨hall.mpr ⟨hseparates, hclash⟩, (hwhole hseparates).mpr hclash⟩

/-- What the callback has been run for at the last final -/
theorem replies_eq_of_calls {replies replies' : List (Reply (List UInt8))}
    (h : replies'.map (ClosureCall.callback 0 <| .data ·) ++ [.dropper 0] =
      replies.map (.callback 0 <| .data ·) ++ [.dropper 0]) : replies = replies' := by
  rw [append_cancel_right_eq] at h
  have hcalls := congrArg (deliveredReplies 0) h
  rw [deliveredReplies_map, deliveredReplies_map] at hcalls
  exact hcalls.symm

/-- The newer reply of 'a' removes the reply of 'b', which is lost, and 'a' is given twice. -/
theorem latest_not_delivers_equal_times :
    ¬ ∀ (zn : PendingTable (List UInt8)) (id : UInt64) (pq : RegisteredQuery (List UInt8)),
      zn.Holds id pq → pq.consolidation = .latest → pq.pendingReplies = [] →
      ∀ answers, finals answers + 1 = max 1 pq.remainingFinals.toNat →
        DeliversLatest byteKeys zn id pq answers := by
  intro h
  obtain ⟨-, replies, hreplies, hlatest⟩ := h _ _ _ (anyReplyTable_holds .latest) rfl rfl
    [some ⟨[97], 5, []⟩, some ⟨[98], 5, []⟩, some ⟨[97], 7, []⟩] (by decide)
  have hdelivered : replies = [⟨[97], 7, []⟩, ⟨[97], 5, []⟩] := replies_eq_of_calls hreplies
  exact absurd hlatest.nodup (by rw [hdelivered]; decide)

theorem monotonic_delivers_newer :
    DeliversMonotonic byteKeys (anyReplyTable .monotonic) 1 (anyReplyQuery .monotonic)
      [some ⟨[97], 5, []⟩, some ⟨[98], 5, []⟩, some ⟨[97], 7, []⟩] :=
  (monotonic_delivers_iff (anyReplyTable_holds .monotonic) rfl _ (by decide)).mpr (by decide)

/-- The callback is run for a reply that is older than one of its key before. -/
theorem monotonic_not_delivers_older :
    ¬ ∀ (zn : PendingTable (List UInt8)) (id : UInt64) (pq : RegisteredQuery (List UInt8)),
      zn.Holds id pq → pq.consolidation = .monotonic →
      ∀ answers, finals answers + 1 ≤ max 1 pq.remainingFinals.toNat →
        DeliversMonotonic byteKeys zn id pq answers := by
  intro h
  have hproperty := h _ _ _ (anyReplyTable_holds .monotonic) rfl
    [some ⟨[97], 5, []⟩, some ⟨[97], 3, []⟩] (by decide)
  exact absurd hproperty.increasing (by decide)

end ZenohPico.Session
